import Mathlib.Data.List.AList
import Mathlib.Data.List.Sort
import Zmux.Overlay
import Zmux.PackageName

/-!
# The state of zpip

What `zpip.py` reads and writes: the file tree under `USER_PACKAGES_DIR`,
the installed database `packages.json`, and the manifests, wheels and
responses that reach it from outside (`Env`).

A path is the list of its components, as `PurePosixPath.parts` gives it,
so that `./x`, `x` and `a//b`, `a/b` denote one file. Names in archives
and in the database stay raw strings (`RelName.raw`) and carry the check
of `_safe_members` as a field. Directories are not recorded: creating
one, or a clash between a file and a directory, only ever makes an
operation raise, and `Env.fault` says which operations raise.

`uuid4` gives each call of `install` its own transaction; the model
counts them (`World.txns`), and the outside world may answer every
transaction differently.
-/

namespace Zmux

/-! ## Paths and trees -/

abbrev Path := List String

/-- `PurePosixPath(raw).parts` of a relative path. -/
def pathParts (raw : String) : Path :=
  ((raw.toList.splitOn '/').map String.ofList).filter fun c => c ≠ "" && c ≠ "."

def isAbsolute (raw : String) : Bool := raw.toList.head? = some '/'

/-- The path check of `_safe_members`: relative, and no `..` component. -/
def safePath (raw : String) : Bool := !isAbsolute raw && !(pathParts raw).contains ".."

/-- A file name relative to the package directory, as the archive spells it. -/
structure RelName where
  raw : String
  safe : safePath raw = true
deriving DecidableEq

namespace RelName

def path (f : RelName) : Path := pathParts f.raw

end RelName

abbrev Content := List UInt8

/-- The regular files below one directory. -/
abbrev Tree := Store Path Content

/-! ## The installed database -/

abbrev Txn := Nat

structure Record where
  version : String
  runtimeId : String
  abi : String
  channel : String
  files : List RelName
  sha256 : String
  size : Nat
  transaction : Txn
  explicit : Bool
deriving DecidableEq

abbrev Db := AList fun _ : Name => Record

/-! ## Requirements and manifests -/

structure Specifier where
  operator : String
  version : String
deriving DecidableEq

/-- A parsed `packaging` requirement. -/
structure Requirement where
  name : String
  specifier : List Specifier
  marker : Option String
deriving DecidableEq

/-- The `packaging` library: parsing (`none` is `InvalidRequirement`),
marker evaluation and `version in specifier` (false on `InvalidVersion`). -/
structure Packaging where
  parse : String → Option Requirement
  evaluate : String → Bool
  contains : List Specifier → String → Bool

structure Manifest where
  version : String
  runtimeId : String
  abi : String
  channel : Option String
  url : String
  sha256 : String
  dependencies : List String
deriving DecidableEq

/-- One entry of the `urls` list of PyPI's JSON. -/
structure PypiFile where
  filename : String
  url : String
  sha256 : String
deriving DecidableEq

structure PypiMetadata where
  version : Option String
  urls : List PypiFile
  requiresDist : List String
deriving DecidableEq

/-! ## Wheels -/

structure Member where
  filename : String
  fileSize : Nat
  content : Content
deriving DecidableEq

/-- A response to a wheel download: the announced `Content-Length`, the
length and the SHA-256 of the body, and the members `zipfile` finds in it
(`none` is `BadZipFile`). -/
structure Response where
  announced : Nat
  size : Nat
  sha256 : String
  archive : Option (List Member)

/-! ## Operations and errors -/

/-- The operations of `install` that may raise. -/
inductive Op where
  | download
  | makeStaging
  | extract
  | smokeImport
  | makeBackup
  | backupCopy (f : RelName)
  | makeParent (f : RelName)
  | replace (f : RelName)
  | unlink (f : RelName)
  | saveDb
deriving DecidableEq

inductive Error where
  | invalidName
  | cycle (chain : List Name)
  | raised (op : Op)
  | indexUnreachable
  | runtimeMismatch
  | noUniversalWheel (name : Name)
  | conflict (dependency : Name) (version : String) (specifier : List Specifier)
  | dependencyFailed (dependency : Name) (error : Error)
  | unsatisfied (dependency : Name) (version : String) (specifier : List Specifier)
  | notHttps
  | invalidSha256
  | wheelTooLarge
  | sha256Mismatch (expected actual : String)
  | badZipFile
  | unsafePath (raw : String)
  | duplicateMember (raw : String)
  | contentTooLarge
  | noWheelMetadata
  | noWheelRecord
  | ownership (file : String) (owner : Name)

def specifierText (specs : List Specifier) : String :=
  ",".intercalate ((specs.map fun s => s.operator ++ s.version).insertionSort (· ≤ ·))

/-- The `error` text of a failed result. The text of an exception raised
outside (`raised`, `indexUnreachable`, `badZipFile`) is not zpip's own. -/
def Error.text : Error → String
  | .invalidName => "Invalid package name"
  | .cycle chain => "Dependency cycle: " ++ " -> ".intercalate chain
  | .raised _ => ""
  | .indexUnreachable => ""
  | .runtimeMismatch => "Curated wheel does not match this runtime and ABI"
  | .noUniversalWheel name =>
      name ++ " has no universal Python wheel; a runtime-locked ZABAWHEELS build is required"
  | .conflict dependency version specifier =>
      "Dependency conflict: installed " ++ dependency ++ " " ++ version
        ++ " does not satisfy " ++ specifierText specifier ++ "; upgrade it explicitly"
  | .dependencyFailed dependency error =>
      "Dependency " ++ dependency ++ " failed: " ++ error.text
  | .unsatisfied dependency version specifier =>
      "Resolved " ++ dependency ++ " " ++ version
        ++ " does not satisfy " ++ specifierText specifier
  | .notHttps => "Only HTTPS wheel downloads are accepted"
  | .invalidSha256 => "A valid SHA-256 is required"
  | .wheelTooLarge => "Wheel exceeds the 100 MiB safety limit"
  | .sha256Mismatch expected actual =>
      "SHA-256 mismatch: expected " ++ expected ++ ", got " ++ actual
  | .badZipFile => ""
  | .unsafePath raw => "Unsafe archive path: " ++ raw
  | .duplicateMember raw => "Duplicate archive member: " ++ raw
  | .contentTooLarge => "Uncompressed wheel content exceeds safety limit"
  | .noWheelMetadata => "Wheel metadata is missing"
  | .noWheelRecord => "Wheel RECORD is missing"
  | .ownership file owner => "File ownership conflict: " ++ file ++ " belongs to " ++ owner

/-! ## The world -/

/-- What answers zpip from outside, transaction by transaction. `curated`
is the index of this runtime and ABI and `none` when it cannot be
fetched, `pypi` the JSON of a project or of one release, `copied` how much
a backup copy that raises has written (`none` if the backup file was not
opened), and `order` the iteration order of a set of file names. -/
structure Env where
  packaging : Packaging
  runtimeId : String
  abi : String
  curated : Txn → Option (Name → Option Manifest)
  pypi : Txn → Name → Option String → Option PypiMetadata
  fetch : Txn → String → Option Response
  fault : Txn → Op → Bool
  copied : Txn → RelName → Option ℕ
  order : Txn → List RelName → List RelName
  order_perm : ∀ t l, (order t l).Perm l

/-- The state `install` and `uninstall` work on. `needs` is a ghost: the
active requirements of the manifest each package was installed from,
which `packages.json` does not keep. No function reads it. -/
structure World where
  db : Db
  user : Tree
  txns : Txn
  needs : Name → List Requirement

end Zmux
