import Zmux.ZpipOwnership

/-!
# What zpip has installed stays

The wheel that a package was installed from, the files on disk and what
`verify` and `doctor` of `zpip.py` report. Between two changes of a package
other packages come, are upgraded and go; its record and its files stay as
they are, byte for byte those of the members of its wheel, and `verify`
misses none of them (`wheel_stays`). That needs what the accounts need: a
file that two packages share is spelled alike.

Whether a module can be imported is a parameter, and which module is asked
for is left out.
-/

namespace Zmux

/-- `missing` of `verify`. -/
def missingFiles (w : World) (record : Record) : List String :=
  (record.files.filter fun f => (w.user f.path).isNone).map RelName.raw

/-- The result of `verify` for a package that zpip manages. -/
structure Verified where
  ok : Bool
  missing : List String
  importOk : Bool
  error : String
deriving DecidableEq

/-- What importing the module of a package raises, as text. -/
abbrev Imports := World → Name → Option String

/-- `verify`; `none` is the answer that the package is not managed. -/
def verify (imports : Imports) (package : Name) (w : World) : Option Verified :=
  (w.db.lookup package).map fun record =>
    let missing := missingFiles w record
    let error := imports w package
    ⟨missing = [] && error.isNone, missing, error.isNone, error.getD ""⟩

/-- `ok` of `doctor`. -/
def doctorOk (imports : Imports) (w : World) : Bool :=
  w.db.keys.all fun package => (verify imports package w).any Verified.ok

/-! ## Nothing is missing -/

/-- Every file of a record is there. -/
theorem Accounted.missingFiles_eq {w : World} (h : Accounted w) {package : Name}
    {record : Record} (hlookup : w.db.lookup package = some record) :
    missingFiles w record = [] := by
  have hthere (f : RelName) (hf : f ∈ record.files) : ¬(w.user f.path).isNone = true := by
    have hsome := h.present package f ⟨record, hlookup, hf⟩
    intro hnone
    rw [Option.isNone_iff_eq_none] at hnone
    rw [hnone] at hsome
    cases hsome
  rw [missingFiles, List.filter_eq_nil_iff.mpr hthere, List.map_nil]

/-- So what `verify` says is whether the module can be imported. -/
theorem Accounted.verify_eq {w : World} (h : Accounted w) (imports : Imports) {package : Name}
    {record : Record} (hlookup : w.db.lookup package = some record) :
    verify imports package w
      = some ⟨(imports w package).isNone, [], (imports w package).isNone,
          (imports w package).getD ""⟩ := by
  rw [verify, hlookup, Option.map_some, h.missingFiles_eq hlookup]
  simp

theorem Accounted.doctorOk_iff {w : World} (h : Accounted w) (imports : Imports) :
    doctorOk imports w = true ↔ ∀ package ∈ w.db.keys, imports w package = none := by
  rw [doctorOk, List.all_eq_true]
  refine forall₂_congr fun package hkey => ?_
  obtain ⟨record, hlookup⟩ := Option.isSome_iff_exists.mp
    (AList.lookup_isSome.mpr (AList.mem_keys.mpr hkey))
  rw [h.verify_eq imports hlookup]
  simp

/-! ## Changes of other packages -/

/-- The change is not one of the package. -/
def Spares (package : Name) : Change → Prop
  | .transaction => True
  | .commit _ _ _ _ other _ _ => other ≠ package
  | .remove other => other ≠ package

/-- The wheel that the manifest's URL is answered with has the member. -/
def WheelHas (env : Env) (t : Txn) (manifest : Manifest) (f : RelName) (content : Content) :
    Prop :=
  ∃ response listing members, env.fetch t manifest.url = some response
    ∧ response.archive = some listing ∧ safeMembers listing = .ok members
    ∧ (f, content) ∈ members

theorem WheelHas.file {env : Env} {t : Txn} {manifest : Manifest} {f : RelName}
    {content : Content} (h : WheelHas env t manifest f content) : WheelFile env t manifest f := by
  obtain ⟨response, listing, members, hfetch, harchive, hmembers, hmem⟩ := h
  exact ⟨response, listing, members, hfetch, harchive, hmembers, List.mem_map_of_mem hmem⟩

/-- What has been extracted stays, as long as no later member has its path. -/
theorem extractLoop_notMem : ∀ {members : List (RelName × Content)} {staging staging' : Tree}
    {p : Path}, extractLoop members staging = .ok staging' →
    p ∉ members.map (fun m => m.1.path) → staging' p = staging p
  | [], _, _, _, h, _ => by
      obtain rfl := Except.ok.inj h
      rfl
  | (f, content) :: rest, staging, staging', p, h, hp => by
      rw [List.map_cons, List.mem_cons, not_or] at hp
      rw [extractLoop] at h
      split at h
      · cases h
      · rw [extractLoop_notMem h hp.2, Function.update_of_ne hp.1]

theorem extractLoop_mem : ∀ {members : List (RelName × Content)} {staging staging' : Tree}
    {f : RelName} {content : Content}, extractLoop members staging = .ok staging' →
    (members.map fun m => m.1.path).Nodup → (f, content) ∈ members →
    staging' f.path = some content
  | (g, bytes) :: rest, staging, staging', f, content, h, hnodup, hmem => by
      rw [List.map_cons, List.nodup_cons] at hnodup
      rw [extractLoop] at h
      split at h
      · cases h
      · rcases List.mem_cons.mp hmem with heq | hmem
        · obtain ⟨rfl, rfl⟩ := Prod.mk.inj heq
          rw [extractLoop_notMem h hnodup.1, Function.update_self]
        · exact extractLoop_mem h hnodup.2 hmem

/-- The members of the wheel are staged with their contents. -/
theorem stage_has {env : Env} {t : Txn} {package : Name} {manifest : Manifest} {db : Db}
    {staged : Staged} (h : stage env t package manifest db = .ok staged)
    (hnodup : (staged.files.map RelName.path).Nodup) {f : RelName} {content : Content}
    (hhas : WheelHas env t manifest f content) : staged.staging f.path = some content := by
  obtain ⟨response, hdownload, hextract, -, -⟩ := stage_ok h
  obtain ⟨hfetch, -⟩ := download_ok hdownload
  obtain ⟨listing, members, harchive, hmembers, hfiles, hloop⟩ := extract_members hextract
  obtain ⟨response', listing', members', hfetch', harchive', hmembers', hmem⟩ := hhas
  obtain rfl := Option.some.inj (hfetch.symm.trans hfetch')
  obtain rfl := Option.some.inj (harchive.symm.trans harchive')
  obtain rfl := Except.ok.inj (hmembers.symm.trans hmembers')
  rw [hfiles, List.map_map] at hnodup
  exact extractLoop_mem hloop hnodup hmem

section Commit

variable {env : Env} {channel : String} {stack : List Name} {t : Txn} {package other : Name}
  {manifest : Manifest} {new : List Name} {w w' : World}

/-- **A commit puts the wheel on disk**: every member has its content, where
the wheel spells what it shares with the database alike. -/
theorem commit_has (hcommit : change w (.commit env channel stack t package manifest new) = some w')
    (halike : SpeltAlike w (.commit env channel stack t package manifest new)) {f : RelName}
    {content : Content} (hhas : WheelHas env t manifest f content) :
    w'.user f.path = some content := by
  obtain ⟨staged, rfl, hstage, hnodup, hfiles, -⟩ := change_commit hcommit
  have hf := (hfiles f).mpr hhas.file
  have hgone : f.path ∉ (obsoleteFiles env t (previousFiles w.db package)
      staged.files).map RelName.path := by
    intro hmem
    obtain ⟨o, ho, hop⟩ := List.mem_map.mp hmem
    obtain ⟨hrecord, hnew⟩ := mem_obsoleteFiles.mp ho
    exact hnew (halike f hhas.file package o hrecord hop ▸ hf)
  rw [withWheel_tree, erased, overlay_notMem hgone, patched,
    overlay_mem (List.mem_map_of_mem hf)]
  exact stage_has hstage hnodup hhas

/-- A commit of another package leaves the files alone. -/
theorem commit_spares (haccounted : Accounted w) (hother : other ≠ package)
    (hcommit : change w (.commit env channel stack t other manifest new) = some w')
    (halike : SpeltAlike w (.commit env channel stack t other manifest new)) {f : RelName}
    (hf : Records w.db package f) : w'.user f.path = w.user f.path := by
  obtain ⟨staged, rfl, -, -, hfiles, hfree⟩ := change_commit hcommit
  have hgone : f.path ∉ (obsoleteFiles env t (previousFiles w.db other)
      staged.files).map RelName.path := by
    intro hmem
    obtain ⟨o, ho, hop⟩ := List.mem_map.mp hmem
    exact hother (haccounted.single other package o f (mem_obsoleteFiles.mp ho).1 hf hop)
  have hapart : f.path ∉ staged.files.map RelName.path := by
    intro hmem
    obtain ⟨g, hg, hgp⟩ := List.mem_map.mp hmem
    have heq := halike g ((hfiles g).mp hg) package f hf hgp.symm
    exact hfree g hg package hother.symm (heq ▸ hf)
  rw [withWheel_tree, erased, overlay_notMem hgone, patched, overlay_notMem hapart]

end Commit

/-- A removal of another package leaves the files alone. -/
theorem remove_spares {package other : Name} {w : World} (haccounted : Accounted w)
    (hother : other ≠ package) {f : RelName} (hf : Records w.db package f) :
    (uninstall other w).user f.path = w.user f.path := by
  by_contra htouched
  obtain ⟨g, hg, hpath⟩ := uninstall_touches htouched
  exact hother (haccounted.single other package g f hg hf hpath)

/-- What a change of another package leaves: the record and its files. -/
theorem change_spares {package : Name} {w w' : World} {c : Change} (haccounted : Accounted w)
    (halike : SpeltAlike w c) (hspares : Spares package c) (hchange : change w c = some w') :
    w'.db.lookup package = w.db.lookup package ∧
      ∀ f, Records w.db package f → w'.user f.path = w.user f.path := by
  cases c with
  | transaction =>
      obtain rfl := Option.some.inj hchange
      exact ⟨rfl, fun _ _ => rfl⟩
  | commit env channel stack t other manifest new =>
      refine ⟨?_, fun f hf => commit_spares haccounted hspares hchange halike hf⟩
      obtain ⟨staged, rfl, -⟩ := change_commit hchange
      exact AList.lookup_insert_ne (Ne.symm hspares)
  | remove other =>
      rw [change_remove hchange]
      exact ⟨uninstall_lookup_ne (Ne.symm hspares),
        fun f hf => remove_spares haccounted hspares hf⟩

/-! ## Runs -/

/-- A step of a run that does not change the package. -/
def Elsewhere (package : Name) (w : World) (c : Change) : Prop :=
  SpeltAlike w c ∧ Spares package c

theorem run_spares {package : Name} {w w' : World} (haccounted : Accounted w)
    (hrun : Reach change (Elsewhere package) w w') :
    Accounted w' ∧ w'.db.lookup package = w.db.lookup package ∧
      ∀ f, Records w.db package f → w'.user f.path = w.user f.path := by
  refine hrun.invariant (fun w' => Accounted w' ∧ w'.db.lookup package = w.db.lookup package ∧
    ∀ f, Records w.db package f → w'.user f.path = w.user f.path)
    ⟨haccounted, rfl, fun _ _ => rfl⟩ ?_
  rintro w₁ c w₂ ⟨hinner, hlookup, hkept⟩ ⟨halike, hspares⟩ hchange
  obtain ⟨hsame, hfiles⟩ := change_spares hinner halike hspares hchange
  refine ⟨accounted_change hinner halike hchange, hsame.trans hlookup, fun f hf => ?_⟩
  have hrecords : Records w₁.db package f := by
    obtain ⟨record, hrecord, hmem⟩ := hf
    exact ⟨record, hlookup.trans hrecord, hmem⟩
  exact (hfiles f hrecords).trans (hkept f hf)

/-- **What is installed stays.** After the commit of a package, whatever
other packages are committed or removed, its record is what the commit
wrote, every member of its wheel is on disk with its content, `verify`
misses nothing, and `doctor` only finds what cannot be imported. -/
theorem wheel_stays {w₀ w w₁ w₂ : World} {env : Env} {channel : String} {stack : List Name}
    {t : Txn} {package : Name} {manifest : Manifest} {new : List Name} (hempty : w₀.db = ∅)
    (hrun : Reach change SpeltAlike w₀ w)
    (hcommit : change w (.commit env channel stack t package manifest new) = some w₁)
    (halike : SpeltAlike w (.commit env channel stack t package manifest new))
    (hlater : Reach change (Elsewhere package) w₁ w₂) :
    w₂.db.lookup package = w₁.db.lookup package ∧
      (∀ f content, WheelHas env t manifest f content → w₂.user f.path = some content) ∧
      ∀ imports : Imports,
        verify imports package w₂ = some ⟨(imports w₂ package).isNone, [],
          (imports w₂ package).isNone, (imports w₂ package).getD ""⟩ ∧
        (doctorOk imports w₂ = true ↔ ∀ n ∈ w₂.db.keys, imports w₂ n = none) := by
  have haccounted : Accounted w := hrun.invariant Accounted (accounted_empty hempty)
    fun s c s' hs halike hchange => accounted_change hs halike hchange
  have haccounted₁ := accounted_change haccounted halike hcommit
  obtain ⟨haccounted₂, hlookup, hkept⟩ := run_spares haccounted₁ hlater
  obtain ⟨staged, hw₁, -, -, hfiles, -⟩ := change_commit hcommit
  obtain ⟨record, hrecord⟩ : ∃ record, w₁.db.lookup package = some record := by
    rw [hw₁, withWheel, AList.lookup_insert]
    exact ⟨_, rfl⟩
  refine ⟨hlookup, fun f content hhas => ?_, fun imports =>
    ⟨haccounted₂.verify_eq imports (hlookup.trans hrecord), haccounted₂.doctorOk_iff imports⟩⟩
  have hrecords : Records w₁.db package f := by
    rw [hw₁]
    exact records_withWheel_self.mpr ((hfiles f).mpr hhas.file)
  exact (hkept f hrecords).trans (commit_has hcommit halike hhas)

/-! ## A package beside another -/

/-- A wheel with no path of the database spells everything alike. -/
theorem speltAlike_of_apart {env : Env} {channel : String} {stack : List Name} {t : Txn}
    {package : Name} {manifest : Manifest} {new : List Name} {w : World} {staged : Staged}
    (hstage : stage env t package manifest w.db = .ok staged)
    (hapart : ∀ f ∈ staged.files, ∀ e ∈ w.db.entries, ∀ g ∈ e.2.files, g.path ≠ f.path) :
    SpeltAlike w (.commit env channel stack t package manifest new) := by
  rintro f hf n g ⟨record, hlookup, hg⟩ hpath
  exact absurd hpath (hapart f ((mem_stage hstage f).mpr hf) ⟨n, record⟩
    (AList.mem_lookup_iff.mp hlookup) g hg)

def sixWheel : List Member :=
  [⟨"six.py", 1, [3]⟩, ⟨"six.dist-info/WHEEL", 0, []⟩, ⟨"six.dist-info/RECORD", 0, []⟩]

/-- Transaction 0 fetches the wheel of `demo`, every later one that of
`six`. -/
def besideEnv : Env :=
  { demoEnv [] with
    fetch := fun t _ => some ⟨1, 1, demoDigest, some (if t = 0 then demoWheel else sixWheel)⟩ }

def demoCommit : Change := .commit besideEnv "stable" [] 0 "demo" demoManifest []

def sixCommit : Change := .commit besideEnv "stable" [] 1 "six" demoManifest []

def demoInstalled : World := (change emptyWorld demoCommit).getD emptyWorld

/-- Whether the wheel of `six` has a path of `demo`. -/
def sixApart : Bool :=
  match stage besideEnv 1 "six" demoManifest demoInstalled.db with
  | .ok staged => staged.files.all fun f => demoInstalled.db.entries.all fun e =>
      e.2.files.all fun g => g.path ≠ f.path
  | .error _ => false

theorem wheel_stays_beside : ∃ w, change demoInstalled sixCommit = some w ∧
    w.db.lookup "demo" = demoInstalled.db.lookup "demo" ∧
      verify (fun _ _ => none) "demo" w = some ⟨true, [], true, ""⟩ := by
  have hdemo : change emptyWorld demoCommit = some demoInstalled := by
    obtain ⟨w, hw⟩ := Option.isSome_iff_exists.mp
      (show (change emptyWorld demoCommit).isSome = true by decide +kernel)
    rw [demoInstalled, hw, Option.getD_some]
  obtain ⟨w, hsix⟩ := Option.isSome_iff_exists.mp
    (show (change demoInstalled sixCommit).isSome = true by decide +kernel)
  have hnone : SpeltAlike emptyWorld demoCommit := by
    rintro f - n g ⟨record, hlookup, -⟩
    cases hlookup
  have halike : SpeltAlike demoInstalled sixCommit := by
    have hapart : sixApart = true := by decide +kernel
    unfold sixApart at hapart
    split at hapart
    · rename_i staged hstage
      refine speltAlike_of_apart hstage fun f hf e he g hg => ?_
      simpa using List.all_eq_true.mp (List.all_eq_true.mp (List.all_eq_true.mp hapart f hf) e he)
        g hg
    · cases hapart
  have hlater : Reach change (Elsewhere "demo") demoInstalled w :=
    .next .start ⟨halike, show "six" ≠ "demo" by decide⟩ hsix
  obtain ⟨hlookup, -, hverify⟩ := wheel_stays rfl .start hdemo hnone hlater
  exact ⟨w, hsix, hlookup, (hverify fun _ _ => none).1⟩

end Zmux
