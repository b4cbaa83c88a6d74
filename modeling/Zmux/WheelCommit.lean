import Zmux.WheelConfinement

/-!
# Where a wheel is installed to

The commit and rollback loops of `install` (`zpip.py`), which use the names
of the archive again as they are. What they change is below the package
directory, below the staging directory of the transaction, or in its backup
directory (`wheel_confined`): files are moved out of staging, and what they
replace is first copied to the backup.
-/

namespace Zmux

namespace WheelDisk

open PathTree

variable (sys : System)

/-- The directories of a transaction. -/
structure Layout where
  stagingDir : FsPath
  userDir : FsPath
  transaction : String

namespace Layout

def staging (l : Layout) : FsPath := l.stagingDir ++ [.into l.transaction]

def backup (l : Layout) : FsPath := l.stagingDir ++ [.into (l.transaction ++ ".backup")]

end Layout

/-- `target.exists() and target.is_file()`. -/
def isThere (path : FsPath) : Call Bool := do
  let there ← stat sys (exists? sys path)
  if there then stat sys (isFile sys path) else pure false

/-- The copy of what is replaced. -/
def backUp (target saved : FsPath) : Call PUnit := do
  let there ← isThere sys target
  if there then do
    mkdirParents sys true saved.dropLast
    copy2 sys target saved
  else pure ⟨⟩

/-- A native library is read-only, where it can be. -/
def freeze (relative : String) (target : FsPath) : Call PUnit :=
  if endsWith ".so" relative then
    tryCatch (call sys (chmod sys target 0o444)) fun e =>
      match e with
      | .os _ => pure ⟨⟩
      | e => throw e
  else pure ⟨⟩

/-- The body of the commit loop. -/
def commitFile (l : Layout) (relative : String) : Call PUnit := do
  let target := join l.userDir relative
  backUp sys target (join l.backup relative)
  mkdirParents sys true target.dropLast
  call sys (replace sys (join l.staging relative) target)
  freeze sys relative target
  modify fun s => { s with locals := s.locals ++ [relative] }

/-- The body of the rollback loop. -/
def rollbackFile (l : Layout) (relative : String) : Call PUnit := do
  let target := join l.userDir relative
  let saved := join l.backup relative
  let there ← stat sys (exists? sys saved)
  if there then do
    mkdirParents sys true target.dropLast
    call sys (replace sys saved target)
  else do
    let there ← stat sys (exists? sys target)
    if there then call sys (unlink sys target) else pure ⟨⟩

/-- The part of `install` that commits. What comes after the loop may raise
as well. -/
def commit (l : Layout) (files : List String) (raises : Bool) : Call PUnit := do
  mkdirParents sys false l.backup
  files.forM (commitFile sys l)
  if raises then throw (.os .refused) else pure ⟨⟩

/-- With its `except`. -/
def commitOrRollback (l : Layout) (files : List String) (raises : Bool) : Call PUnit :=
  tryCatch (commit sys l files raises) fun _ => do
    let s ← get
    s.locals.reverse.forM (rollbackFile sys l)

/-! ## The three directories -/

/-- Where the directories are when the loops begin. `paths.py` makes the
package directory and the staging one side by side. -/
structure Laid (l : Layout) (stagingRoot userRoot : List String) (d : Disk) : Prop where
  stagingDir : d.resolve sys.limit [] l.stagingDir = some stagingRoot
  staging : d.entry (stagingRoot ++ [l.transaction]) = some .dir
  linkless : Linkless (below (stagingRoot ++ [l.transaction])) d
  user : Rooted sys.limit l.userDir userRoot d
  notInside : ¬userRoot <+: stagingRoot
  notAround : ¬stagingRoot <+: userRoot

/-- What the loops may touch. -/
def touched (l : Layout) (stagingRoot userRoot : List String) : Set (List String) :=
  below userRoot ∪ below (stagingRoot ++ [l.transaction])
    ∪ withIn (stagingRoot ++ [l.transaction ++ ".backup"])

variable {sys} {l : Layout} {stagingRoot userRoot : List String} {d d' d₁ : Disk}

theorem backup_ne (transaction : String) : transaction ++ ".backup" ≠ transaction := by
  intro h
  have hlength := congrArg String.length h
  rw [String.length_append] at hlength
  have hpos : ".backup".length = 7 := rfl
  omega

namespace Laid

theorem staging_rooted (h : Laid sys l stagingRoot userRoot d) :
    Rooted sys.limit l.staging (stagingRoot ++ [l.transaction]) d where
  resolves := resolve_append_names h.stagingDir (down_singleton (plain_of_some h.staging rfl))
  dir := h.staging
  linkless := h.linkless

theorem not_user_of_prefix (h : Laid sys l stagingRoot userRoot d) (name : String) :
    ¬userRoot <+: stagingRoot ++ [name] := by
  intro hle
  rcases List.prefix_concat_iff.mp hle with heq | hle
  · exact h.notAround (heq ▸ List.prefix_append ..)
  · exact h.notInside hle

theorem not_prefix_user (h : Laid sys l stagingRoot userRoot d) (name : String) :
    ¬stagingRoot ++ [name] <+: userRoot :=
  fun hle => h.notAround ((List.prefix_append ..).trans hle)

theorem not_prefix_of_below (h : Laid sys l stagingRoot userRoot d) {p : List String}
    (hp : p ∈ below userRoot) (name : String) : ¬p <+: stagingRoot ++ [name] :=
  fun hle => h.not_user_of_prefix name (hp.1.trans hle)

theorem user_notMem (h : Laid sys l stagingRoot userRoot d) :
    userRoot ∉ touched l stagingRoot userRoot := by
  rintro ((hu | hs) | hb)
  · exact hu.2 rfl
  · exact h.not_prefix_user _ hs.1
  · exact h.not_prefix_user _ hb

theorem staging_notMem (h : Laid sys l stagingRoot userRoot d) :
    stagingRoot ++ [l.transaction] ∉ touched l stagingRoot userRoot := by
  rintro ((hu | hs) | hb)
  · exact h.not_user_of_prefix _ hu.1
  · exact hs.2 rfl
  · have heq := List.IsPrefix.eq_of_length hb (by simp)
    exact backup_ne _ (List.singleton_inj.mp (List.append_cancel_left heq))

/-- What is extracted leaves the directories as they are. -/
theorem extracted (h : Laid sys l stagingRoot userRoot d)
    (hc : Confined (below (stagingRoot ++ [l.transaction])) d d') :
    Laid sys l stagingRoot userRoot d' where
  stagingDir := (hc.resolve ..).trans h.stagingDir
  staging := (hc.entry fun hmem => hmem.2 rfl).trans h.staging
  linkless := hc.linkless h.linkless
  user := h.user.confined hc
    ((hc.entry fun hmem => h.not_prefix_user _ hmem.1).trans h.user.dir)
  notInside := h.notInside
  notAround := h.notAround

end Laid

/-- The backup directory is still to be made. -/
structure Ready (sys : System) (l : Layout) (stagingRoot userRoot : List String) (d₁ : Disk) :
    Prop extends Laid sys l stagingRoot userRoot d₁ where
  fresh : d₁.entry (stagingRoot ++ [l.transaction ++ ".backup"]) = none

theorem Ready.linkless_touched (h : Ready sys l stagingRoot userRoot d₁) :
    Linkless (touched l stagingRoot userRoot) d₁ := by
  rintro q ((hu | hs) | hb)
  · exact h.user.linkless q hu
  · exact h.linkless q hs
  · refine plain_of_none ?_
    by_contra hsome
    by_cases heq : stagingRoot ++ [l.transaction ++ ".backup"] = q
    · exact hsome (heq ▸ h.fresh)
    · have hdir := entry_above hsome hb heq
      rw [h.fresh] at hdir
      cases hdir

/-! ## What the loops keep -/

/-- Once the backup directory is made. -/
structure Committing (l : Layout) (stagingRoot userRoot : List String) (d₁ : Disk)
    (files : List String) (s : Session) : Prop where
  confined : Confined (touched l stagingRoot userRoot) d₁ s.disk
  backup : s.disk.entry (stagingRoot ++ [l.transaction ++ ".backup"]) = some .dir
  committed : ∀ name ∈ s.locals, name ∈ files

namespace Committing

variable {files : List String} {s : Session} {p r : List String} {e : TreeEntry String FileData}

theorem calm : Calm (Committing l stagingRoot userRoot d₁ files) :=
  fun _ _ hs => ⟨hs.confined, hs.backup, hs.committed⟩

variable (h : Ready sys l stagingRoot userRoot d₁)
  (hs : Committing l stagingRoot userRoot d₁ files s)

include h hs

theorem user_rooted : Rooted sys.limit l.userDir userRoot s.disk :=
  h.user.confined hs.confined ((hs.confined.entry h.user_notMem).trans h.user.dir)

theorem staging_rooted :
    Rooted sys.limit l.staging (stagingRoot ++ [l.transaction]) s.disk :=
  h.toLaid.staging_rooted.confined hs.confined
    ((hs.confined.entry h.staging_notMem).trans h.staging)

theorem backup_rooted :
    Rooted sys.limit l.backup (stagingRoot ++ [l.transaction ++ ".backup"]) s.disk where
  resolves := by
    rw [hs.confined.resolve]
    exact resolve_append_names h.stagingDir (down_singleton (plain_of_none h.fresh))
  dir := hs.backup
  linkless := hs.confined.linkless
    (h.linkless_touched.mono fun q hq => Or.inr (below_subset _ hq))

theorem put (hp : s.disk.Puts p) (hmem : p ∈ touched l stagingRoot userRoot)
    (he : e.isLink = false) (n : ℕ) :
    Committing l stagingRoot userRoot d₁ files
      { s with disk := s.disk.put p e hp, calls := n } where
  confined := hs.confined.trans
    (confined_put hp hmem (hs.confined.linkless h.linkless_touched p hmem) he)
  backup := by
    have hne : stagingRoot ++ [l.transaction ++ ".backup"] ≠ p := by
      rintro rfl
      exact hp.place hs.backup
    exact (entry_put_ne hp hne).trans hs.backup
  committed := hs.committed

theorem erase (hp : p ∈ below userRoot) (n : ℕ) :
    Committing l stagingRoot userRoot d₁ files { s with disk := s.disk.erase p, calls := n } := by
  have hne : p ≠ [] := by
    rintro rfl
    exact hp.2 (List.prefix_nil.mp hp.1).symm
  have hregion : withIn p ⊆ touched l stagingRoot userRoot := fun q hq =>
    Or.inl (Or.inl (below_mono hp hq))
  refine ⟨hs.confined.trans (confined_erase hne hregion ?_), ?_, hs.committed⟩
  · exact (hs.confined.linkless h.linkless_touched).mono hregion
  · change (s.disk.erase p).entry _ = _
    rw [entry_erase _ hne, if_neg (h.not_prefix_of_below hp _)]
    exact hs.backup

theorem relocate (hmove : s.disk.Relocates p r) (hdir : s.disk.entry r.dropLast = some .dir)
    (hp : withIn p ⊆ touched l stagingRoot userRoot)
    (hbackup : ¬p <+: stagingRoot ++ [l.transaction ++ ".backup"]) (hr : r ∈ below userRoot)
    (n : ℕ) :
    Committing l stagingRoot userRoot d₁ files
      { s with disk := s.disk.relocate p r hmove, calls := n } := by
  have hregion : withIn r ⊆ touched l stagingRoot userRoot := fun q hq =>
    Or.inl (Or.inl (below_mono hr hq))
  have hplain := hs.confined.linkless h.linkless_touched
  refine ⟨hs.confined.trans (confined_relocate hmove hdir hp (hplain.mono hp) hregion
    (hplain.mono hregion)), ?_, hs.committed⟩
  exact (relocated_other (by rw [hs.backup]; exact Option.some_ne_none _)
    (h.not_prefix_of_below hr _) hbackup).trans hs.backup

omit hs

section Calls

variable {path src dst base : FsPath} {root : List String}

theorem mkdirs (hroot : ∀ s, Committing l stagingRoot userRoot d₁ files s →
      Rooted sys.limit base root s.disk)
    (hregion : below root ⊆ touched l stagingRoot userRoot) (names : List String) :
    Keeps (Committing l stagingRoot userRoot d₁ files)
      (mkdirParents sys true (base ++ names.map .into)) :=
  mkdirParents_keeps calm hroot
    (fun _ _ n hp hs hbelow _ => hs.put h hp (hregion hbelow) rfl n) names true

theorem opened (hpath : ∀ s, Committing l stagingRoot userRoot d₁ files s →
      ∃ p ∈ touched l stagingRoot userRoot, s.disk.resolve sys.limit [] path = some p) :
    Keeps (Committing l stagingRoot userRoot d₁ files) (call sys (openWb sys path)) := by
  refine Faults.call_keeps calm fun s d n hs hok => ?_
  obtain ⟨p, hmem, hp⟩ := hpath s hs
  obtain ⟨q, hq, f, hputs, rfl⟩ := openWb_ok hok
  obtain rfl := Option.some.inj (hp.symm.trans hq)
  exact hs.put h hputs hmem rfl n

theorem updated (hpath : ∀ s, Committing l stagingRoot userRoot d₁ files s →
      ∃ p ∈ touched l stagingRoot userRoot, s.disk.resolve sys.limit [] path = some p)
    {d : Disk} (n : ℕ) {change : FileData → FileData}
    (hs : Committing l stagingRoot userRoot d₁ files s)
    (hok : update sys path change s.disk = .ok d) :
    Committing l stagingRoot userRoot d₁ files { s with disk := d, calls := n } := by
  obtain ⟨p, hmem, hp⟩ := hpath s hs
  rcases update_ok hok with rfl | ⟨q, f, hq, -, hputs, rfl⟩
  · exact calm s n hs
  · obtain rfl := Option.some.inj (hp.symm.trans hq)
    exact hs.put h hputs hmem rfl n

theorem replaced (hsrc : ∀ s, Committing l stagingRoot userRoot d₁ files s →
      ∃ p, slot sys src s.disk = some p ∧ withIn p ⊆ touched l stagingRoot userRoot
        ∧ ¬p <+: stagingRoot ++ [l.transaction ++ ".backup"])
    (hdst : ∀ s, Committing l stagingRoot userRoot d₁ files s →
      ∃ r ∈ below userRoot, slot sys dst s.disk = some r) :
    Keeps (Committing l stagingRoot userRoot d₁ files) (call sys (replace sys src dst)) := by
  refine Faults.call_keeps calm fun s d n hs hok => ?_
  obtain ⟨p, hp, hregion, hbackup⟩ := hsrc s hs
  obtain ⟨r, hbelow, hr⟩ := hdst s hs
  obtain ⟨p', r', hp', hr', hmoved⟩ := replace_ok hok
  obtain rfl := Option.some.inj (hp.symm.trans hp')
  obtain rfl := Option.some.inj (hr.symm.trans hr')
  rcases hmoved with rfl | ⟨hmove, hdir, rfl⟩
  · exact calm s n hs
  · exact hs.relocate h hmove hdir hregion hbackup hbelow n

theorem unlinked (hpath : ∀ s, Committing l stagingRoot userRoot d₁ files s →
      ∃ p ∈ below userRoot, slot sys path s.disk = some p) :
    Keeps (Committing l stagingRoot userRoot d₁ files) (call sys (unlink sys path)) := by
  refine Faults.call_keeps calm fun s d n hs hok => ?_
  obtain ⟨p, hbelow, hp⟩ := hpath s hs
  obtain ⟨q, hq, rfl⟩ := unlink_ok hok
  obtain rfl := Option.some.inj (hp.symm.trans hq)
  exact hs.erase h hbelow n

end Calls

end Committing

/-! ## One name -/

section Names

variable {files : List String} {relative : String}
variable (h : Ready sys l stagingRoot userRoot d₁) (hsafe : safePath relative = true)
  (hne : pathParts relative ≠ [])

theorem below_user_touched :
    below userRoot ⊆ touched l stagingRoot userRoot := fun _ hq => Or.inl (Or.inl hq)

theorem below_backup_touched :
    below (stagingRoot ++ [l.transaction ++ ".backup"]) ⊆ touched l stagingRoot userRoot :=
  fun _ hq => Or.inr hq.1

/-- The parent of a name below a directory. -/
theorem dropLast_join {base : FsPath} (hsafe : safePath relative = true)
    (hne : pathParts relative ≠ []) :
    (join base relative).dropLast = base ++ (pathParts relative).dropLast.map .into := by
  have hmap : (pathParts relative).map (Hop.into (ν := String)) ≠ [] := by simpa using hne
  rw [join_safe hsafe, List.dropLast_append_of_ne_nil hmap, List.map_dropLast]

include h hsafe hne

theorem backUp_keeps : Keeps (Committing l stagingRoot userRoot d₁ files)
    (backUp sys (join l.userDir relative) (join l.backup relative)) := by
  have hthere : Keeps (Committing l stagingRoot userRoot d₁ files)
      (isThere sys (join l.userDir relative)) :=
    Triple.bind (stat_keeps Committing.calm _) fun there =>
      Triple.ite (fun _ => stat_keeps Committing.calm _) fun _ => Triple.pure fun _ hs => hs
  refine Triple.bind hthere fun there =>
    Triple.ite (fun _ => ?_) fun _ => Triple.pure fun _ hs => hs
  rw [dropLast_join hsafe hne]
  refine Triple.bind (Committing.mkdirs h (fun s hs => hs.backup_rooted h) below_backup_touched _)
    fun _ => Triple.bind (stat_keeps Committing.calm _) fun inside => ?_
  -- below the backup directory, under one more name or not
  obtain ⟨names, hnames, hdst⟩ : ∃ names ≠ [], (if inside = true then
      join l.backup relative ++ (join l.userDir relative).getLast?.toList
        else join l.backup relative) = l.backup ++ names.map Hop.into := by
    rw [join_safe hsafe, join_safe hsafe]
    split
    · refine ⟨pathParts relative ++ (pathParts relative).getLast?.toList,
        List.append_ne_nil_of_left_ne_nil hne _, ?_⟩
      have hmap : (pathParts relative).map (Hop.into (ν := String)) ≠ [] := by simpa using hne
      rw [List.getLast?_append_of_ne_nil _ hmap, List.getLast?_map, List.map_append,
        ← List.append_assoc]
      cases (pathParts relative).getLast? <;> rfl
    · exact ⟨_, hne, rfl⟩
  have hlocate : ∀ s, Committing l stagingRoot userRoot d₁ files s →
      ∃ p ∈ touched l stagingRoot userRoot,
        s.disk.resolve sys.limit [] (l.backup ++ names.map .into) = some p := fun s hs =>
    ⟨_, below_backup_touched (mem_below hnames), (hs.backup_rooted h).locate names⟩
  refine Triple.bind (Faults.look_keeps Committing.calm _) fun f => ?_
  rw [hdst]
  exact Triple.bind (Committing.opened h hlocate) fun _ =>
    Triple.bind (copyfileobj_keeps Committing.calm fun s d n change hs hok =>
      Committing.updated h hlocate n hs hok) fun _ =>
    Faults.call_keeps Committing.calm fun s d n hs hok => Committing.updated h hlocate n hs hok

theorem freeze_keeps : Keeps (Committing l stagingRoot userRoot d₁ files)
    (freeze sys relative (join l.userDir relative)) := by
  refine Triple.ite (fun _ => ?_) fun _ => Triple.pure fun _ hs => hs
  refine Triple.tryCatch (Faults.call_keeps Committing.calm fun s d n hs hok => ?_) fun e => ?_
  · refine Committing.updated h (fun s hs => ?_) n hs hok
    rw [join_safe hsafe]
    exact ⟨_, below_user_touched (mem_below hne), (hs.user_rooted h).locate _⟩
  · split
    · exact Triple.pure fun _ hs => hs
    · exact Triple.throw fun _ hs => hs

theorem commitFile_keeps (hmem : relative ∈ files) :
    Keeps (Committing l stagingRoot userRoot d₁ files) (commitFile sys l relative) := by
  refine Triple.bind (backUp_keeps h hsafe hne) fun _ => ?_
  rw [dropLast_join hsafe hne]
  refine Triple.bind (Committing.mkdirs h (fun s hs => hs.user_rooted h) below_user_touched _)
    fun _ => Triple.bind (Committing.replaced h (fun s hs => ?_) fun s hs => ?_) fun _ =>
      Triple.bind (freeze_keeps h hsafe hne) fun _ => Triple.modify fun s hs => ?_
  · rw [join_safe hsafe]
    refine ⟨_, (hs.staging_rooted h).slot hne, fun q hq => ?_, fun hle => ?_⟩
    · exact Or.inl (Or.inr (below_mono (mem_below hne) hq))
    · have hlength := hle.length_le
      have hpos := List.length_pos_iff.mpr hne
      simp only [List.length_append, List.length_singleton] at hlength
      omega
  · rw [join_safe hsafe]
    exact ⟨_, mem_below hne, (hs.user_rooted h).slot hne⟩
  · refine ⟨hs.confined, hs.backup, fun name hname => ?_⟩
    rcases List.mem_append.mp hname with hold | hlast
    · exact hs.committed name hold
    · rw [List.mem_singleton.mp hlast]
      exact hmem

theorem rollbackFile_keeps :
    Keeps (Committing l stagingRoot userRoot d₁ files) (rollbackFile sys l relative) := by
  refine Triple.bind (stat_keeps Committing.calm _) fun there =>
    Triple.ite (fun _ => ?_) fun _ => ?_
  · rw [dropLast_join hsafe hne]
    refine Triple.bind (Committing.mkdirs h (fun s hs => hs.user_rooted h) below_user_touched _)
      fun _ => Committing.replaced h (fun s hs => ?_) fun s hs => ?_
    · rw [join_safe hsafe]
      refine ⟨_, (hs.backup_rooted h).slot hne, fun q hq => ?_, fun hle => ?_⟩
      · exact Or.inr ((List.prefix_append ..).trans hq)
      · have hlength := hle.length_le
        have hpos := List.length_pos_iff.mpr hne
        simp only [List.length_append] at hlength
        omega
    · rw [join_safe hsafe]
      exact ⟨_, mem_below hne, (hs.user_rooted h).slot hne⟩
  · refine Triple.bind (stat_keeps Committing.calm _) fun there =>
      Triple.ite (fun _ => Committing.unlinked h fun s hs => ?_) fun _ => Triple.pure fun _ hs => hs
    rw [join_safe hsafe]
    exact ⟨_, mem_below hne, (hs.user_rooted h).slot hne⟩

end Names

/-! ## The loops -/

section Loops

variable {files : List String}

/-- The backup directory is made, or nothing is. -/
theorem mkdirBackup_triple (h : Laid sys l stagingRoot userRoot d₁) (files : List String) :
    Triple (fun s => s.disk = d₁ ∧ s.locals = []) (mkdirParents sys false l.backup)
      (fun _ s => Ready sys l stagingRoot userRoot d₁
        ∧ Committing l stagingRoot userRoot d₁ files s)
      fun _ s => s.disk = d₁ ∧ s.locals = [] := by
  have hstagingDir : d₁.entry stagingRoot = some .dir :=
    d₁.parent _ _ (by rw [h.staging]; exact Option.some_ne_none _)
  have hslot : slot sys l.backup d₁ = some (stagingRoot ++ [l.transaction ++ ".backup"]) := by
    rw [Layout.backup, slot_snoc, h.stagingDir]
    rfl
  have hmade : ∀ (s : Session) (d : Disk) (n : ℕ), s.disk = d₁ ∧ s.locals = [] →
      mkdir sys l.backup s.disk = .ok d → Ready sys l stagingRoot userRoot d₁
        ∧ Committing l stagingRoot userRoot d₁ files { s with disk := d, calls := n } := by
    rintro s d n ⟨hs, hcommitted⟩ hok
    rw [hs] at hok
    obtain ⟨p, hp, hnone, hputs, rfl⟩ := mkdir_ok hok
    obtain rfl := Option.some.inj (hslot.symm.trans hp)
    refine ⟨⟨h, hnone⟩, confined_put hputs (Or.inr List.prefix_rfl) (plain_of_none hnone) rfl,
      entry_put_self hputs, fun name hname => ?_⟩
    rw [hcommitted] at hname
    cases hname
  have hback : l.backup.reverse
      = .into (l.transaction ++ ".backup") :: l.stagingDir.reverse := by
    rw [Layout.backup, List.reverse_append]
    rfl
  have hpath : (Hop.into (l.transaction ++ ".backup") :: l.stagingDir.reverse).reverse
      = l.backup := by rw [← hback, List.reverse_reverse]
  have hcalm : Calm fun s : Session => s.disk = d₁ ∧ s.locals = [] := fun _ _ hs => hs
  rw [mkdirParents, hback, mkdirBack, hpath]
  refine Triple.tryCatch (Faults.call_triple hcalm hmade) fun e => ?_
  split
  · -- the directory above is there
    rintro s ⟨⟨hs, -⟩, hraise | ⟨e', hraise, hmissing⟩⟩
    · cases hraise
    · obtain rfl := Raised.os.inj hraise
      rw [hs] at hmissing
      obtain ⟨p, hp, hnone⟩ := mkdir_fileNotFound hmissing
      obtain rfl := Option.some.inj (hslot.symm.trans hp)
      rw [List.dropLast_concat, hstagingDir] at hnone
      cases hnone
  · exact Triple.throw fun _ hs => hs.1

theorem commit_triple (h : Laid sys l stagingRoot userRoot d₁)
    (hfiles : ∀ name ∈ files, safePath name = true ∧ pathParts name ≠ []) (raises : Bool) :
    Triple (fun s => s.disk = d₁ ∧ s.locals = []) (commit sys l files raises)
      (fun _ s => Confined (touched l stagingRoot userRoot) d₁ s.disk)
      fun _ s => s.disk = d₁ ∧ s.locals = [] ∨ Ready sys l stagingRoot userRoot d₁
        ∧ Committing l stagingRoot userRoot d₁ files s := by
  refine Triple.bind ((mkdirBackup_triple h files).conseq (fun _ hs => hs) (fun _ _ hs => hs)
    fun _ _ hs => Or.inl hs) fun _ => ?_
  rintro s ⟨hready, hs⟩
  have hloop : Keeps (Committing l stagingRoot userRoot d₁ files)
      (files.forM (commitFile sys l)) :=
    @Triple.forM _ _ _ _ _ (fun _ => Committing l stagingRoot userRoot d₁ files) files
      fun done name rest heq => by
        have hmem : name ∈ files := by
          rw [heq]
          exact List.mem_append_right _ List.mem_cons_self
        exact commitFile_keeps hready (hfiles name hmem).1 (hfiles name hmem).2 hmem
  refine Triple.bind (hloop.conseq (fun _ hs => hs) (fun _ _ hs => hs)
    fun _ _ hs => Or.inr ⟨hready, hs⟩) (fun _ => Triple.ite (fun _ => ?_) fun _ => ?_) s hs
  · exact Triple.throw fun _ hs => Or.inr ⟨hready, hs⟩
  · exact Triple.pure fun _ hs => hs.confined

theorem rollback_triple (hready : Ready sys l stagingRoot userRoot d₁)
    (hfiles : ∀ name ∈ files, safePath name = true ∧ pathParts name ≠ []) {committed : List String}
    (hcommitted : ∀ name ∈ committed, name ∈ files) :
    Keeps (Committing l stagingRoot userRoot d₁ files)
      (committed.forM (rollbackFile sys l)) :=
  @Triple.forM _ _ _ _ _ (fun _ => Committing l stagingRoot userRoot d₁ files) committed
    fun done name rest heq => by
      have hname := hfiles name (hcommitted name (by
        rw [heq]
        exact List.mem_append_right _ List.mem_cons_self))
      exact rollbackFile_keeps hready hname.1 hname.2

theorem commitOrRollback_triple (h : Laid sys l stagingRoot userRoot d₁)
    (hfiles : ∀ name ∈ files, safePath name = true ∧ pathParts name ≠ []) (raises : Bool) :
    Triple (fun s => s.disk = d₁ ∧ s.locals = []) (commitOrRollback sys l files raises)
      (fun _ s => Confined (touched l stagingRoot userRoot) d₁ s.disk)
      fun _ s => Confined (touched l stagingRoot userRoot) d₁ s.disk := by
  refine Triple.tryCatch (commit_triple h hfiles raises) fun e => Triple.get_bind fun s hs => ?_
  rcases hs with ⟨hdisk, hcommitted⟩ | ⟨hready, hs⟩
  · -- nothing has been committed
    rw [hcommitted]
    refine Triple.pure fun s' hs' => ?_
    rw [hs', hdisk]
    exact Confined.refl _ _
  · refine (rollback_triple hready hfiles fun name hname => ?_).conseq (fun s' hs' => hs' ▸ hs)
      (fun _ _ hs => hs.confined) fun _ _ hs => hs.confined
    exact hs.committed name (List.mem_reverse.mp hname)

end Loops

/-- Extraction stays strictly below staging, whether it raises or not; when
it returns, the files that have come are those of the names, the sizes are
in bounds and the metadata is there. With names it has returned, the loops
stay below the package directory and in the directories of the
transaction. -/
theorem wheel_confined (sys : System) (staging : FsPath) (archive : Option (List Member))
    {root : List String} {s : Session} (hstaging : Rooted sys.limit staging root s.disk) :
    Confined (below root) s.disk (finalState (extract sys staging archive s)).disk
      ∧ ∀ files s', extract sys staging archive s = .ok files s' →
        Extracting root s.disk files s'.disk
          ∧ (∃ listing, archive = some listing ∧ Listed listing files)
          ∧ ∀ l stagingRoot userRoot s₁, Laid sys l stagingRoot userRoot s₁.disk →
            s₁.locals = [] → ∀ raises, Confined (touched l stagingRoot userRoot) s₁.disk
              (finalState (commitOrRollback sys l files raises s₁)).disk := by
  have hextract := extract_triple hstaging archive
  refine ⟨?_, fun files s' hrun => ?_⟩
  · refine (hextract.conseq (fun _ hs => hs) (fun _ _ hs => ?_) fun _ _ hs => hs).final rfl
    exact hs.1.confined
  · obtain ⟨hextracting, hsafe, hlisted⟩ := hextract.of_ok rfl hrun
    refine ⟨hextracting, hlisted, fun l stagingRoot userRoot s₁ hlaid hcommitted raises => ?_⟩
    have hfiles : ∀ name ∈ files, safePath name = true ∧ pathParts name ≠ [] := fun name hname =>
      ⟨hsafe name hname, (hextracting.written name hname).1⟩
    exact (commitOrRollback_triple hlaid hfiles raises).final ⟨rfl, hcommitted⟩

/-! ## A second installation -/

def sampleSystem : System := ⟨40, fun _ => false, fun _ => 0, 0o644⟩

def sampleLayout : Layout := ⟨[.into "staging"], [.into "user"], "t"⟩

def sampleWheel : List Member :=
  [⟨"a.py", 1, [1]⟩, ⟨"w.dist-info/WHEEL", 1, [2]⟩, ⟨"w.dist-info/RECORD", 1, [3]⟩]

/-- With the `a.py` of an earlier one. -/
def sampleDisk : Disk :=
  ofList [(["staging"], .dir), (["staging", "t"], .dir), (["user"], .dir),
    (["user", "a.py"], .file ⟨[0], 0o644⟩)] (by decide)

def sampleStart : Session := ⟨sampleDisk, 0, []⟩

theorem sample_laid : Laid sampleSystem sampleLayout ["staging"] ["user"] sampleDisk where
  stagingDir := rfl
  staging := rfl
  linkless := linkless_ofList _ (by decide)
  user := ⟨rfl, rfl, linkless_ofList _ (by decide)⟩
  notInside := by decide
  notAround := by decide

/-- Its names, and the copy of the earlier file in the backup directory. -/
theorem sample_run : ∃ files s', extract sampleSystem sampleLayout.staging (some sampleWheel)
      sampleStart = .ok files s' ∧ s'.locals = []
    ∧ s'.disk.entry ["staging", "t.backup", "a.py"] = none
    ∧ (finalState (commitOrRollback sampleSystem sampleLayout files false s')).disk.entry
        ["staging", "t.backup", "a.py"] = some (.file ⟨[0], 0o644⟩) := by
  have hrun : (match extract sampleSystem sampleLayout.staging (some sampleWheel) sampleStart with
    | .ok files s' => decide (s'.locals = []
      ∧ s'.disk.entry ["staging", "t.backup", "a.py"] = none
      ∧ (finalState (commitOrRollback sampleSystem sampleLayout files false s')).disk.entry
        ["staging", "t.backup", "a.py"] = some (.file ⟨[0], 0o644⟩))
    | .error _ _ => false) = true := by decide +kernel
  split at hrun
  · rename_i files s' heq
    exact ⟨files, s', heq, of_decide_eq_true hrun⟩
  · cases hrun

theorem wheel_confined_sample : ∃ files s', extract sampleSystem sampleLayout.staging
      (some sampleWheel) sampleStart = .ok files s'
    ∧ Extracting ["staging", "t"] sampleDisk files s'.disk
    ∧ Confined (touched sampleLayout ["staging"] ["user"]) s'.disk
        (finalState (commitOrRollback sampleSystem sampleLayout files false s')).disk := by
  obtain ⟨files, s', hrun, hcommitted, -⟩ := sample_run
  obtain ⟨hextracting, -, hloops⟩ :=
    (@wheel_confined sampleSystem sampleLayout.staging (some sampleWheel) ["staging", "t"]
      sampleStart sample_laid.staging_rooted).2 files s' hrun
  exact ⟨files, s', hrun, hextracting, hloops sampleLayout ["staging"] ["user"] s'
    (sample_laid.extracted hextracting.confined) hcommitted false⟩

/-- The loops do write outside the package directory: what is replaced is
copied to the backup. -/
theorem commit_writes_backup : ∃ files s', extract sampleSystem sampleLayout.staging
      (some sampleWheel) sampleStart = .ok files s'
    ∧ Laid sampleSystem sampleLayout ["staging"] ["user"] s'.disk
    ∧ ∃ q ∉ below ["user"], s'.disk.entry q = none
      ∧ ∃ f, (finalState (commitOrRollback sampleSystem sampleLayout files false s')).disk.entry q
        = some (.file f) := by
  obtain ⟨files, s', hrun, hcommitted, hnone, hcopy⟩ := sample_run
  have hextracting :=
    ((extract_triple sample_laid.staging_rooted (some sampleWheel)).of_ok rfl hrun).1
  refine ⟨files, s', hrun, sample_laid.extracted hextracting.confined, _, ?_, hnone, _, hcopy⟩
  exact fun hmem => absurd hmem.1 (by decide)

end WheelDisk

end Zmux
