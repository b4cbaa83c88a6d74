import Zmux.IndexManifests

/-!
# Generating the index of one channel

`generate_index` of `generate_index.py` for any `--channel`: what it
collects, and the files it writes below `v1/`. The files of the runtime
are written whole, from the manifests of the channels asked for.

So a run for one channel keeps the entries that come only from other
channels precisely when there are none (`other_channels_kept_iff`).
-/

namespace Zmux

namespace ChannelIndex

/-! ## Manifests -/

/-- A manifest with `has_extensions` of its `native` object and
`build_passed` of its `verification` object. -/
structure ReleaseJson extends ManifestJson where
  hasExtensions : Option Bool
  buildPassed : Option Bool

structure Release extends Published where
  hasExtensions : Option Bool
  buildPassed : Option Bool

def ReleaseJson.release (json : ReleaseJson) : Option Release :=
  json.published.map fun m =>
    { m with hasExtensions := json.hasExtensions, buildPassed := json.buildPassed }

structure ReleaseFile where
  filename : String
  content : Option ReleaseJson

abbrev ReleaseDir := Channel → List ReleaseFile

/-- `collect_manifests`. -/
def collectManifests (dir : List ReleaseFile) : List Release :=
  ((dir.filter fun file => endsWith ".json" file.filename).insertionSort
    fun a b => a.filename ≤ b.filename).filterMap fun file =>
      if file.filename ∈ ["index.json", "packages.json"] then none
      else file.content.bind ReleaseJson.release

/-- `--channel`. -/
inductive Requested where
  | all
  | only (channel : Channel)

def Requested.channels : Requested → List Channel
  | .all => [.experimental, .candidate, .stable]
  | .only channel => [channel]

def manifests (index : ReleaseDir) (requested : Requested) : List Release :=
  requested.channels.flatMap fun channel => collectManifests (index channel)

/-! ## The files -/

/-- What the lock says of the runtime. -/
structure FullLock extends RuntimeLock where
  pythonVersion : Option String
  abis : Option (List String)
  minApi : Option ℕ
  status : Option String

structure RuntimeEntry where
  runtimeId : String
  pythonVersion : String
  abis : List String
  minApi : ℕ
  status : String

structure RuntimesJson where
  schemaVersion : ℕ
  runtimes : List RuntimeEntry

/-- `generate_routines_json`. -/
def generateRoutinesJson (lock : FullLock) : RuntimesJson where
  schemaVersion := 1
  runtimes := [
    { runtimeId := lock.runtimeId.getD "PENDING"
      pythonVersion := lock.pythonVersion.getD "PENDING"
      abis := lock.abis.getD []
      minApi := lock.minApi.getD 26
      status := lock.status.getD "unknown" }]

structure PackageEntry where
  name : String
  version : String
  channel : String
  native : Bool
  status : String
deriving DecidableEq

def Release.entry (m : Release) : PackageEntry where
  name := m.name
  version := m.version
  channel := m.channel.getD "experimental"
  native := m.hasExtensions.getD false
  status := if m.buildPassed.getD false then "smoke-passed" else "planned"

/-- The dict that a loop over the manifests fills. -/
def byName {β : Type} (value : Release → β) (manifests : List Release) : Name → Option β :=
  manifests.foldl (fun (packages : Name → Option β) m =>
    Function.update packages m.name (some (value m))) fun _ => none

structure PackagesJson where
  schemaVersion : ℕ
  runtimeId : String
  packages : Name → Option PackageEntry

/-- `generate_packages_json`. -/
def generatePackagesJson (manifests : List Release) (runtimeId : String) : PackagesJson where
  schemaVersion := 1
  runtimeId := runtimeId
  packages := byName Release.entry manifests

structure AbiJson where
  schemaVersion : ℕ
  runtimeId : String
  abi : String
  packages : Name → Option Release

/-- `generate_abi_json`. -/
def generateAbiJson (manifests : List Release) (runtimeId abi : String) : AbiJson where
  schemaVersion := 1
  runtimeId := runtimeId
  abi := abi
  packages := byName id (manifests.filter fun m => m.abi = abi)

/-- The directory of a runtime, with the files that are there. -/
structure RuntimeDir where
  packages : Option PackagesJson
  abi : String → Option AbiJson

/-- The directory `v1`. -/
structure V1Dir where
  runtimes : Option RuntimesJson
  runtime : String → RuntimeDir

/-- `generate_index`. -/
def generateIndex (index : ReleaseDir) (lock : FullLock) (out : V1Dir) (requested : Requested) :
    V1Dir :=
  let ms := manifests index requested
  let written : RuntimeDir :=
    { packages := some (generatePackagesJson ms lock.id)
      abi := fun abi =>
        if abi ∈ indexAbis then some (generateAbiJson ms lock.id abi)
        else (out.runtime lock.id).abi abi }
  { runtimes := some (generateRoutinesJson lock)
    runtime := Function.update out.runtime lock.id written }

/-! ### What the client reads

For the channel `all`, the ABI files are those of `Zmux.generateIndex`. -/

def ReleaseFile.indexFile (file : ReleaseFile) : IndexFile where
  filename := file.filename
  content := file.content.map ReleaseJson.toManifestJson

theorem ReleaseFile.indexFile_filename (file : ReleaseFile) :
    file.indexFile.filename = file.filename := rfl

theorem collectManifests_published (dir : List ReleaseFile) :
    (collectManifests dir).map Release.toPublished
      = Zmux.collectManifests (dir.map ReleaseFile.indexFile) := by
  have hcontent : ∀ file : ReleaseFile,
      (file.content.bind ReleaseJson.release).map Release.toPublished
        = file.indexFile.content.bind ManifestJson.published := by
    intro file
    rw [ReleaseFile.indexFile]
    cases file.content with
    | none => rfl
    | some json =>
        show (json.published.map _).map Release.toPublished = json.published
        rw [Option.map_map]
        exact Option.map_id_apply
  rw [collectManifests, Zmux.collectManifests, List.filter_map, ← List.map_insertionSort
    (r := fun a b : ReleaseFile => a.filename ≤ b.filename), List.filterMap_map,
    List.map_filterMap]
  · refine List.filterMap_congr fun file _ => ?_
    dsimp only [Function.comp_apply]
    rw [file.indexFile_filename, ← hcontent]
    split
    · rfl
    · rfl
  · exact fun _ _ _ _ => Iff.rfl

theorem foldl_published {name : Name} (ms : List Release) :
    ∀ {packages : Name → Option Release} {packages' : Name → Option Published},
      (packages name).map Release.toPublished = packages' name →
      (ms.foldl (fun (packages : Name → Option Release) m =>
          Function.update packages m.name (some (id m))) packages name).map Release.toPublished
        = (ms.map Release.toPublished).foldl (fun (packages : Name → Option Published) m =>
          Function.update packages m.name (some m)) packages' name := by
  induction ms with
  | nil => exact id
  | cons m ms ih =>
      intro packages packages' h
      refine ih ?_
      by_cases hname : name = m.name
      · subst hname
        dsimp only
        rw [Function.update_self, Function.update_self]
        rfl
      · dsimp only
        rw [Function.update_of_ne hname]
        exact h.trans (Function.update_of_ne hname ..).symm

theorem generateAbiJson_published (ms : List Release) (runtimeId abi : String) (name : Name) :
    ((generateAbiJson ms runtimeId abi).packages name).map Release.toPublished
      = Zmux.generateAbiJson (ms.map Release.toPublished) abi name := by
  rw [Zmux.generateAbiJson, List.filter_map]
  exact foldl_published _ rfl

/-! ## The entries of a file -/

theorem isSome_foldl {β : Type} {value : Release → β} {name : Name} (ms : List Release) :
    ∀ packages : Name → Option β,
      (ms.foldl (fun (packages : Name → Option β) m =>
          Function.update packages m.name (some (value m))) packages name).isSome = true
        ↔ (packages name).isSome = true ∨ ∃ m ∈ ms, m.name = name := by
  induction ms with
  | nil => simp
  | cons m ms ih =>
      intro packages
      rw [List.foldl_cons, ih]
      by_cases hname : name = m.name
      · simp [hname]
      · simp [Function.update_of_ne hname, Ne.symm hname]

/-- A name is in the file if a manifest has it. -/
theorem isSome_byName {β : Type} {value : Release → β} {name : Name} {ms : List Release} :
    (byName value ms name).isSome = true ↔ ∃ m ∈ ms, m.name = name := by
  simp [byName, isSome_foldl]

/-- The entry of a name is kept, unless `own` is what it comes from. -/
def Kept {β : Type} (own : Name → Prop) (before after : Name → Option β) : Prop :=
  ∀ name entry, before name = some entry → ¬own name → after name = some entry

/-- A file that is written from manifests with own names only keeps the
others precisely when there are none. -/
theorem kept_byName_iff {β : Type} (value : Release → β) {own : Name → Prop}
    (old : List Release) {new : List Release} (hnew : ∀ m ∈ new, own m.name) :
    Kept own (byName value old) (byName value new) ↔ ∀ m ∈ old, own m.name := by
  constructor
  · intro h m hm
    by_contra hown
    have hsome : (byName value old m.name).isSome = true := isSome_byName.mpr ⟨m, hm, rfl⟩
    obtain ⟨entry, hentry⟩ := Option.isSome_iff_exists.mp hsome
    have hthere := Option.isSome_iff_exists.mpr ⟨entry, h m.name entry hentry hown⟩
    obtain ⟨m', hm', hname⟩ := isSome_byName.mp hthere
    exact hown (hname ▸ hnew m' hm')
  · intro h name entry hentry hown
    obtain ⟨m, hm, rfl⟩ := isSome_byName.mp (Option.isSome_iff_exists.mpr ⟨entry, hentry⟩)
    exact (hown (h m hm)).elim

/-! ## The frame -/

/-- The packages of a file of the runtime; none if it is not there. -/
def V1Dir.packages (out : V1Dir) (lock : FullLock) : Name → Option PackageEntry :=
  match (out.runtime lock.id).packages with
  | none => fun _ => none
  | some json => json.packages

def V1Dir.abiPackages (out : V1Dir) (lock : FullLock) (abi : String) : Name → Option Release :=
  match (out.runtime lock.id).abi abi with
  | none => fun _ => none
  | some json => json.packages

/-- `ms` has a manifest of this name that goes into the file. -/
def Provides (ms : List Release) (file : Release → Bool) (name : Name) : Prop :=
  ∃ m ∈ ms, file m = true ∧ m.name = name

/-- Entries that come only from other channels than `channel`, before this
run and now, are still there in `packages.json` and both ABI files. -/
structure OthersKept (old index : ReleaseDir) (lock : FullLock) (channel : Channel)
    (before after : V1Dir) : Prop where
  packages : Kept
    (Provides (collectManifests (old channel) ++ collectManifests (index channel)) fun _ => true)
    (before.packages lock) (after.packages lock)
  abi : ∀ abi ∈ indexAbis, Kept
    (Provides (collectManifests (old channel) ++ collectManifests (index channel))
      fun m => m.abi = abi)
    (before.abiPackages lock abi) (after.abiPackages lock abi)

/-- The channel has a manifest of its own for each entry of the three
files. -/
structure HasAll (old index : ReleaseDir) (channel : Channel) : Prop where
  packages : ∀ m ∈ manifests old .all,
    Provides (collectManifests (old channel) ++ collectManifests (index channel)) (fun _ => true)
      m.name
  abi : ∀ m ∈ manifests old .all, m.abi ∈ indexAbis →
    Provides (collectManifests (old channel) ++ collectManifests (index channel))
      (fun m' => m'.abi = m.abi) m.name

theorem provides_new (old index : List ReleaseFile) (file : Release → Bool) :
    ∀ m ∈ (collectManifests index).filter file,
      Provides (collectManifests old ++ collectManifests index) file m.name := by
  intro m hm
  obtain ⟨hm, hfile⟩ := List.mem_filter.mp hm
  exact ⟨m, List.mem_append_right _ hm, hfile, rfl⟩

section Generated

variable {index : ReleaseDir} {lock : FullLock} {out : V1Dir} {requested : Requested}

theorem packages_generateIndex :
    (generateIndex index lock out requested).packages lock
      = byName Release.entry (manifests index requested) := by
  rw [V1Dir.packages, generateIndex]
  dsimp only
  rw [Function.update_self]
  rfl

theorem abiPackages_generateIndex {abi : String} (habi : abi ∈ indexAbis) :
    (generateIndex index lock out requested).abiPackages lock abi
      = byName id ((manifests index requested).filter fun m => m.abi = abi) := by
  rw [V1Dir.abiPackages, generateIndex]
  dsimp only
  rw [Function.update_self]
  dsimp only
  rw [if_pos habi]
  rfl

end Generated

/-- **A run for one channel** after one for all of them keeps what comes
from other channels precisely when the channel has everything itself. -/
theorem other_channels_kept_iff (old index : ReleaseDir) (lock : FullLock) (out : V1Dir)
    (channel : Channel) :
    OthersKept old index lock channel (generateIndex old lock out .all)
        (generateIndex index lock (generateIndex old lock out .all) (.only channel))
      ↔ HasAll old index channel := by
  have honly : manifests index (.only channel) = collectManifests (index channel) :=
    List.append_nil _
  have hpackages := kept_byName_iff Release.entry (manifests old .all)
    (provides_new (old channel) (index channel) fun _ => true)
  rw [List.filter_true] at hpackages
  have habi := fun abi => kept_byName_iff id ((manifests old .all).filter fun m => m.abi = abi)
    (provides_new (old channel) (index channel) fun m => m.abi = abi)
  constructor
  · intro h
    refine ⟨hpackages.mp ?_, fun m hm hserved => ?_⟩
    · have hkept := h.packages
      rwa [packages_generateIndex, packages_generateIndex, honly] at hkept
    · have hkept := h.abi m.abi hserved
      rw [abiPackages_generateIndex hserved, abiPackages_generateIndex hserved, honly] at hkept
      exact (habi m.abi).mp hkept m (List.mem_filter.mpr ⟨hm, decide_eq_true rfl⟩)
  · intro h
    refine ⟨?_, fun abi hserved => ?_⟩
    · rw [packages_generateIndex, packages_generateIndex, honly]
      exact hpackages.mpr h.packages
    · rw [abiPackages_generateIndex hserved, abiPackages_generateIndex hserved, honly]
      refine (habi abi).mpr fun m hm => ?_
      obtain ⟨hmem, hmabi⟩ := List.mem_filter.mp hm
      obtain rfl := of_decide_eq_true hmabi
      exact h.abi m hmem hserved

/-! ## `alpha` is experimental -/

def alphaFile : ReleaseFile where
  filename := "alpha-1.0.0-arm64-v8a.json"
  content := some
    { name := some "alpha"
      version := some "1.0.0"
      runtimeId := some "r"
      abi := some "arm64-v8a"
      artifact := some ⟨"https://w", ""⟩
      channel := some "experimental"
      dependencies := []
      hasExtensions := some true
      buildPassed := some true }

def alphaDir : ReleaseDir
  | .experimental => [alphaFile]
  | _ => []

/-- After `--channel all`, a run with `--channel stable` drops it. -/
theorem stable_run_drops_experimental : ∃ (index : ReleaseDir) (lock : FullLock) (out : V1Dir),
    let before := generateIndex index lock out .all
    let after := generateIndex index lock before (.only .stable)
    (before.packages lock "alpha").isSome = true ∧ after.packages lock "alpha" = none
      ∧ ¬OthersKept index index lock .stable before after := by
  refine ⟨alphaDir, ⟨⟨some "r"⟩, none, none, none, none⟩, ⟨none, fun _ => ⟨none, fun _ => none⟩⟩,
    ?_⟩
  dsimp only
  rw [packages_generateIndex, packages_generateIndex]
  have hthere : (byName Release.entry (manifests alphaDir .all) "alpha").isSome = true := by
    rfl
  refine ⟨hthere, rfl, fun h => ?_⟩
  obtain ⟨entry, hentry⟩ := Option.isSome_iff_exists.mp hthere
  have hkept := h.packages "alpha" entry
  rw [packages_generateIndex, packages_generateIndex] at hkept
  have hnone := hkept hentry (by rintro ⟨m, hm, -⟩; cases hm)
  cases hnone

end ChannelIndex

end Zmux
