import Zmux.ZpipOwnership

/-!
# The version that was asked for

`install(name, v)` hands the version to `resolve`, and what `resolve`
answers with is installed: the record has its version, and the wheel that
is staged, smoke-tested and committed is the one whose digest it declares
(`install_installs`). But `resolve` looks the package up in the curated
index by name and channel only, and takes whatever version PyPI names in
its answer. So the version is the one asked for precisely when the index
that answers has that version (`Answers`).
-/

namespace Zmux

/-! ## What the indexes answer -/

/-- The PyPI metadata for version `v` names `v`, or no version. -/
def PypiAnswers (env : Env) (t : Txn) (package : Name) (v : String) : Prop :=
  ∀ metadata, env.pypi t package (some v) = some metadata → metadata.version.getD v = v

/-- The curated entry of the channel, or else PyPI, has version `v`. -/
def Answers (env : Env) (t : Txn) (package : Name) (channel v : String) : Prop :=
  match (env.curated t).bind fun packages => packages package with
  | some entry =>
    if entry.channel = some channel then entry.version = v else PypiAnswers env t package v
  | none => PypiAnswers env t package v

theorem manifestFromPypi_version {env : Env} {t : Txn} {package : Name} {v : String}
    {manifest : Manifest} (h : manifestFromPypi env t package (some v) = .ok manifest) :
    manifest.version = v ↔ PypiAnswers env t package v := by
  unfold manifestFromPypi at h
  split at h
  · cases h
  · rename_i metadata hmetadata
    split at h
    · cases h
    · rw [← Except.ok.inj h]
      constructor
      · intro hversion metadata' hmetadata'
        obtain rfl := Option.some.inj (hmetadata.symm.trans hmetadata')
        exact hversion
      · intro hanswers
        exact hanswers metadata hmetadata

/-- What the curated lookup finds is the entry of the channel. -/
theorem manifestFromCurated_eq {env : Env} {t : Txn} {package : Name} {channel : String}
    {found : Option Manifest} (h : manifestFromCurated env t package channel = .ok found) :
    found = ((env.curated t).bind fun packages => packages package).filter
      fun entry => entry.channel = some channel := by
  unfold manifestFromCurated at h
  cases hcurated : env.curated t with
  | none =>
      rw [hcurated] at h
      exact (Except.ok.inj h).symm
  | some packages =>
      rw [hcurated] at h
      rw [Option.bind_some]
      dsimp only at h
      cases hentry : packages package with
      | none =>
          rw [hentry] at h
          exact (Except.ok.inj h).symm
      | some entry =>
          rw [hentry] at h
          dsimp only at h
          by_cases hchannel : entry.channel = some channel
          · rw [if_neg (not_not.mpr hchannel)] at h
            rw [Option.filter_some_pos (by simpa using hchannel)]
            split at h
            · cases h
            · exact (Except.ok.inj h).symm
          · rw [if_pos hchannel] at h
            rw [Option.filter_some_neg (by simpa using hchannel)]
            exact (Except.ok.inj h).symm

/-- `resolve` finds the version asked for precisely when the index has it. -/
theorem resolve_version_iff {env : Env} {t : Txn} {package : Name} {channel v : String}
    {manifest : Manifest} (h : resolve env t package (some v) channel = .ok manifest) :
    manifest.version = v ↔ Answers env t package channel v := by
  unfold resolve at h
  unfold Answers
  split at h
  · cases h
  · rename_i entry hfound
    obtain rfl := Except.ok.inj h
    obtain ⟨hentry, hchannel⟩ := Option.filter_eq_some_iff.mp (manifestFromCurated_eq hfound).symm
    rw [hentry]
    dsimp only
    rw [if_pos (of_decide_eq_true hchannel)]
  · rename_i hfound
    have hnone := Option.filter_eq_none_iff.mp (manifestFromCurated_eq hfound).symm
    split
    · rename_i entry hentry
      rw [if_neg (by simpa using hnone entry hentry)]
      exact manifestFromPypi_version h
    · exact manifestFromPypi_version h

/-! ## What is installed -/

/-- `response` is the wheel that was downloaded for the manifest: its
digest is the declared one, and its members are the files of the record. -/
structure WheelOf (env : Env) (t : Txn) (manifest : Manifest) (record : Record)
    (response : Response) : Prop where
  fetched : env.fetch t manifest.url = some response
  declared : response.sha256 = manifest.sha256
  recorded : record.sha256 = response.sha256
  files : ∀ f, f ∈ record.files ↔ WheelFile env t manifest f

/-- **What install installs**: the manifest `resolve` has found, with the
wheel that it declares. -/
theorem install_installs {env : Env} {channel : String} {fuel : Nat} {stack : List Name}
    {name : String} {package : Name} {version : Option String} {w w' : World} {r : Installed}
    (hname : canonicalize name = some package)
    (h : install env channel fuel stack name version w = some (.installed r, w')) :
    ∃ manifest record response, resolve env w.txns package version channel = .ok manifest
      ∧ w'.db.lookup package = some record ∧ record.version = manifest.version
      ∧ WheelOf env w.txns manifest record response := by
  cases fuel with
  | zero =>
      rw [install] at h
      cases h
  | succ fuel =>
      rcases install_cases h with ⟨r, hr, -⟩ | ⟨package', hname', -, ⟨r, hr, -⟩ | hrun⟩
      · cases hr
      · cases hr
      obtain rfl := Option.some.inj (hname.symm.trans hname')
      obtain ⟨manifest, err, new, w₁, hresolve, -, ⟨e, r', -, hr, -⟩ | ⟨rfl, hwheel⟩⟩ := hrun
      · cases hr
      have hchange : change w₁ (.commit env channel stack w.txns package manifest new)
          = some w' := by
        rw [change, hwheel]
      obtain ⟨staged, rfl, hstage, -, hfiles, -⟩ := change_commit hchange
      obtain ⟨response, hdownload, -, -, hsha⟩ := stage_ok hstage
      obtain ⟨hfetch, hdeclared⟩ := download_ok hdownload
      have hrecord : (withWheel env channel stack w.txns package manifest staged w₁).db.lookup
          package = some (newRecord w.txns manifest channel stack (w₁.db.lookup package) staged) :=
        AList.lookup_insert w₁.db
      refine ⟨manifest, _, response, hresolve, hrecord, rfl, hfetch, hdeclared, hsha, fun f => ?_⟩
      rw [← hfiles f, newRecord, List.mem_insertionSort]

/-- **The requested version.** A call for version `v` that returns ok has
installed `v`, with the wheel of a manifest for `v`, precisely when the
index that answers has that version. -/
theorem requested_version_iff {env : Env} {channel : String} {fuel : Nat} {stack : List Name}
    {name : String} {package : Name} {v : String} {w w' : World} {r : Installed}
    (hname : canonicalize name = some package)
    (h : install env channel fuel stack name (some v) w = some (.installed r, w')) :
    (∃ record manifest response, w'.db.lookup package = some record ∧ record.version = v
      ∧ resolve env w.txns package (some v) channel = .ok manifest ∧ manifest.version = v
      ∧ WheelOf env w.txns manifest record response)
      ↔ Answers env w.txns package channel v := by
  obtain ⟨manifest, record, response, hresolve, hrecord, hversion, hwheel⟩ :=
    install_installs hname h
  rw [← resolve_version_iff hresolve]
  constructor
  · rintro ⟨_, manifest', _, -, -, hresolve', hv, -⟩
    obtain rfl := Except.ok.inj (hresolve.symm.trans hresolve')
    exact hv
  · intro hv
    exact ⟨record, manifest, response, hrecord, hversion.trans hv, hresolve, hv, hwheel⟩

/-- The curated index has `demo` 2, and it is what a request for 1 gets. -/
theorem request_gets_other_version :
    (install (demoEnv []) "stable" 1 [] "demo" (some "1") emptyWorld).map
        (fun out => (out.1.ok, (out.2.db.lookup "demo").map Record.version))
      = some (true, some "2") := by
  decide +kernel

theorem requested_version_demo : ∃ r w',
    install (demoEnv []) "stable" 1 [] "demo" (some "2") emptyWorld = some (.installed r, w')
      ∧ ∃ record, w'.db.lookup "demo" = some record ∧ record.version = "2" := by
  have hok : (install (demoEnv []) "stable" 1 [] "demo" (some "2") emptyWorld).map (·.1.ok)
      = some true := by decide +kernel
  cases h : install (demoEnv []) "stable" 1 [] "demo" (some "2") emptyWorld with
  | none => rw [h] at hok; cases hok
  | some out =>
      obtain ⟨result, w'⟩ := out
      cases result with
      | failed r => rw [h] at hok; cases hok
      | installed r =>
          have hname : canonicalize "demo" = some "demo" := by decide
          obtain ⟨record, -, -, hrecord, hversion, -⟩ := (requested_version_iff hname h).mpr rfl
          exact ⟨r, w', rfl, record, hrecord, hversion⟩

end Zmux
