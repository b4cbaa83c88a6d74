import Zmux.ZpipWheel

/-!
# install and uninstall

`install` of `zpip.py`, cut at the seams of its source: resolving the
manifest (`resolve`), the dependency loop (`installDependencies`), the
steps before the first file of the package directory is touched
(`stage`), the commit loop (`commitFiles`), the removal of files the new
version no longer has (`removeObsolete`), the two halves of the `except`
block (`rollback`, `uninstallAll`), and all that follows the dependency
loop (`installWheel`).

An exception in Python keeps the effects that preceded it, so the loops
return the state they reached next to the error. The rollback's own
operations are assumed to succeed.

`install` calls itself for every missing dependency. The recursion runs
on fuel and `none` means that the fuel did not suffice; the recursion
stack of the source is the `stack` argument, as in the source.
-/

namespace Zmux

/-! ## Resolving a manifest -/

/-- `_manifest_from_curated`: an unreachable index counts as no entry. -/
def manifestFromCurated (env : Env) (t : Txn) (name : Name) (channel : String) :
    Except Error (Option Manifest) :=
  match env.curated t with
  | none => .ok none
  | some packages =>
    match packages name with
    | none => .ok none
    | some package =>
      if package.channel ≠ some channel then .ok none
      else if package.runtimeId ≠ env.runtimeId ∨ package.abi ≠ env.abi then
        .error .runtimeMismatch
      else .ok (some package)

/-- `_manifest_from_pypi`: the first universal wheel of the release. -/
def manifestFromPypi (env : Env) (t : Txn) (name : Name) (version : Option String) :
    Except Error Manifest :=
  match env.pypi t name version with
  | none => .error .indexUnreachable
  | some metadata =>
    match metadata.urls.find? fun item => endsWith "-py3-none-any.whl" item.filename with
    | none => .error (.noUniversalWheel name)
    | some selected => .ok {
        version := metadata.version.getD (version.getD "")
        runtimeId := "py3-none-any"
        abi := "any"
        channel := some "pypi"
        url := selected.url
        sha256 := selected.sha256
        dependencies := metadata.requiresDist }

/-- `resolve`: the curated index first, whatever version was asked for. -/
def resolve (env : Env) (t : Txn) (name : Name) (version : Option String) (channel : String) :
    Except Error Manifest :=
  match manifestFromCurated env t name channel with
  | .error e => .error e
  | .ok (some curated) => .ok curated
  | .ok none => manifestFromPypi env t name version

/-! ## Requirements -/

/-- The requirement is active on this runtime. -/
def Requirement.active (packaging : Packaging) (r : Requirement) : Bool :=
  match r.marker with
  | none => true
  | some marker => packaging.evaluate marker

/-- `_manifest_requirements`: what does not parse is skipped. -/
def manifestRequirements (packaging : Packaging) (manifest : Manifest) : List Requirement :=
  (manifest.dependencies.filterMap packaging.parse).filter (·.active packaging)

/-- `_satisfies` on a record of the database. -/
def satisfies (packaging : Packaging) (record : Record) (r : Requirement) : Bool :=
  r.specifier.isEmpty || packaging.contains r.specifier record.version

/-- The version a single `==` specifier pins. -/
def exactPin (r : Requirement) : Option String :=
  match r.specifier with
  | [s] => if s.operator = "==" ∧ '*' ∉ s.version.toList then some s.version else none
  | _ => none

/-! ## Results -/

structure Installed where
  package : Name
  version : String
  files : Nat
  sha256 : String
  dependenciesInstalled : List Name
  warning : Option String

structure Failed where
  package : Name
  error : Error
  rolledBack : Bool

inductive Result where
  | installed (r : Installed)
  | failed (r : Failed)

/-- The `ok` field of the result. -/
def Result.ok : Result → Bool
  | .installed _ => true
  | .failed _ => false

/-- `_tool_collision_warning`. -/
def toolCollisionWarning (package : Name) : Option String :=
  if package = "nano" then
    some ("PyPI's 'nano' is a Django mini-app library, NOT the GNU nano editor. "
      ++ "GNU nano also needs a real TTY, which ZMUX does not provide — use the "
      ++ "Python runtime to edit files (python / open(...).write(...)).")
  else none

/-! ## uninstall -/

/-- Unlink the recorded files that exist. A name without components
denotes the package directory itself and is skipped. -/
def removeFiles (user : Tree) : List RelName → Tree
  | [] => user
  | f :: fs => removeFiles (if f.path = [] then user else Function.update user f.path none) fs

/-- `uninstall` of a canonical name, with every operation succeeding; a
name that is not in the database is refused. -/
def uninstall (package : Name) (w : World) : World :=
  match w.db.lookup package with
  | none => w
  | some record => { w with db := w.db.erase package, user := removeFiles w.user record.files }

/-- The rollback's `uninstall` of every dependency this call pulled in.
The names come from `canonicalize`, and canonicalizing them again cannot
fail (`canonicalize_idem`). -/
def uninstallAll : List Name → World → World
  | [], w => w
  | n :: ns, w =>
    match canonicalize n with
    | none => uninstallAll ns w
    | some package => uninstallAll ns (uninstall package w)

/-! ## The dependency loop -/

/-- The loop over the active requirements. `before` is the snapshot of
the database taken ahead of the loop, `call` the recursive `install`, and
`new` the list `new_dependencies`. -/
def installDependencies (packaging : Packaging)
    (call : Name → Option String → World → Option (Result × World)) (before : Db) :
    List Requirement → (new : List Name) → World →
      Option (Option Error × List Name × World)
  | [], new, w => some (none, new, w)
  | r :: rs, new, w =>
    match canonicalize r.name with
    | none => some (some .invalidName, new, w)
    | some dependency =>
      match before.lookup dependency with
      | some existing =>
        if satisfies packaging existing r then
          installDependencies packaging call before rs new w
        else
          some (some (.conflict dependency existing.version r.specifier), new, w)
      | none =>
        match call dependency (exactPin r) w with
        | none => none
        | some (.failed result, w) =>
          some (some (.dependencyFailed dependency result.error), new, w)
        | some (.installed _, w) =>
          let new := new ++ [dependency]
          match w.db.lookup dependency with
          | none => some (some (.unsatisfied dependency "" r.specifier), new, w)
          | some installed =>
            if satisfies packaging installed r then
              installDependencies packaging call before rs new w
            else
              some (some (.unsatisfied dependency installed.version r.specifier), new, w)

/-! ## Staging -/

structure Staged where
  files : List RelName
  staging : Tree
  size : Nat
  sha256 : String

/-- The files other packages own, with their owners. -/
def owners (db : Db) (package : Name) : List (RelName × Name) :=
  (db.entries.filter fun entry => entry.1 ≠ package).flatMap fun entry =>
    entry.2.files.map fun relative => (relative, entry.1)

/-- The files of the wheel that another package owns, in `sorted` order. -/
def collisions (db : Db) (package : Name) (files : List RelName) : List String :=
  ((files.filter fun f => (owners db package).any fun o => o.1 = f).map
    RelName.raw).insertionSort (· ≤ ·)

/-- From the download to the creation of the backup directory. Nothing
under the package directory changes here. -/
def stage (env : Env) (t : Txn) (package : Name) (manifest : Manifest) (db : Db) :
    Except Error Staged :=
  match download env t manifest.url manifest.sha256 with
  | .error e => .error e
  | .ok response =>
    if env.fault t .makeStaging then .error (.raised .makeStaging)
    else match extract env t response.archive with
      | .error e => .error e
      | .ok (files, staging) =>
        if env.fault t .smokeImport then .error (.raised .smokeImport)
        else match collisions db package files with
          | first :: _ =>
            let owner := ((owners db package).reverse.find? fun o => o.1.raw = first).map (·.2)
            .error (.ownership first (owner.getD ""))
          | [] =>
            if env.fault t .makeBackup then .error (.raised .makeBackup)
            else .ok ⟨files, staging, response.size, response.sha256⟩

/-! ## The commit -/

structure Commit where
  user : Tree
  staging : Tree
  backup : Tree
  committed : List RelName

/-- The backup of a file after `copy2`: its content, or as much of it as a
copy that raises has written, over what was saved before. -/
def backupOf (raises : Bool) (copied : Option ℕ) (content saved : Option Content) :
    Option Content :=
  match content with
  | none => saved
  | some content => if raises then (copied.map fun n => content.take n).or saved else some content

/-- One turn of the commit loop. A failing `chmod` of a `.so` is swallowed
by the source and file modes are not part of a tree. -/
def commitFile (fault : Op → Bool) (copied : RelName → Option ℕ) (c : Commit) (f : RelName) :
    Commit × Option Error :=
  let target := f.path
  let raises := fault (.backupCopy f)
  let saved := backupOf raises (copied f) (c.user target) (c.backup target)
  let c := { c with backup := Function.update c.backup target saved }
  if (c.user target).isSome && raises then (c, some (.raised (.backupCopy f)))
  else if fault (.makeParent f) then (c, some (.raised (.makeParent f)))
  -- a source that an alias of `f` has moved away already is missing
  else if fault (.replace f) || (c.staging target).isNone then
    (c, some (.raised (.replace f)))
  else
    ({ user := Function.update c.user target (c.staging target)
       staging := Function.update c.staging target none
       backup := c.backup
       committed := c.committed ++ [f] }, none)

def commitFiles (fault : Op → Bool) (copied : RelName → Option ℕ) :
    List RelName → Commit → Commit × Option Error
  | [], c => (c, none)
  | f :: fs, c =>
    match commitFile fault copied c f with
    | (c, some e) => (c, some e)
    | (c, none) => commitFiles fault copied fs c

/-- Unlink the files of the previous version that the new one lacks. -/
def removeObsolete (fault : Op → Bool) : List RelName → Tree → Tree × Option Error
  | [], user => (user, none)
  | o :: os, user =>
    if (user o.path).isNone then removeObsolete fault os user
    else if fault (.unlink o) then (user, some (.raised (.unlink o)))
    else removeObsolete fault os (Function.update user o.path none)

/-- `set(previous) - set(files)`, in the order the set is iterated. -/
def obsoleteFiles (env : Env) (t : Txn) (previous files : List RelName) : List RelName :=
  env.order t (previous.dedup.filter fun o => o ∉ files)

/-- The rollback of the committed files, last one first. -/
def rollback : List RelName → (user backup : Tree) → Tree
  | [], user, _ => user
  | f :: fs, user, backup =>
    match backup f.path with
    | some saved =>
      rollback fs (Function.update user f.path (some saved))
        (Function.update backup f.path none)
    | none => rollback fs (Function.update user f.path none) backup

/-- The files of the version that is being replaced. -/
def previousFiles (db : Db) (package : Name) : List RelName :=
  ((db.lookup package).map Record.files).getD []

/-- The commit and its rollback on the package directory: the tree
afterwards, and the error if the commit failed. -/
def commitTree (env : Env) (t : Txn) (package : Name) (db : Db) (staged : Staged) (user : Tree) :
    Tree × Option Error :=
  match commitFiles (env.fault t) (env.copied t) staged.files
      ⟨user, staged.staging, fun _ => none, []⟩ with
  | (c, some e) => (rollback c.committed.reverse c.user c.backup, some e)
  | (c, none) =>
    match removeObsolete (env.fault t)
        (obsoleteFiles env t (previousFiles db package) staged.files) c.user with
    | (user, some e) => (rollback c.committed.reverse user c.backup, some e)
    | (user, none) =>
      if env.fault t .saveDb then
        (rollback c.committed.reverse user c.backup, some (.raised .saveDb))
      else (user, none)

/-! ## install -/

/-- The record `install` saves. -/
def newRecord (t : Txn) (manifest : Manifest) (channel : String) (stack : List Name)
    (old : Option Record) (staged : Staged) : Record where
  version := manifest.version
  runtimeId := manifest.runtimeId
  abi := manifest.abi
  channel := manifest.channel.getD channel
  files := staged.files.insertionSort fun a b => a.raw ≤ b.raw
  sha256 := staged.sha256
  size := staged.size
  transaction := t
  explicit := ((old.map Record.explicit).getD false) || stack.isEmpty

/-- The part of `install` behind the dependency loop, with its `except`
block: `new` are the dependencies this call has pulled in. -/
def installWheel (env : Env) (channel : String) (stack : List Name) (t : Txn) (package : Name)
    (manifest : Manifest) (new : List Name) (w : World) : Result × World :=
  match stage env t package manifest w.db with
  | .error e => (.failed ⟨package, e, true⟩, uninstallAll new.reverse w)
  | .ok staged =>
    match commitTree env t package w.db staged w.user with
    | (user, some e) =>
      (.failed ⟨package, e, true⟩, uninstallAll new.reverse { w with user := user })
    | (user, none) =>
      let record := newRecord t manifest channel stack (w.db.lookup package) staged
      (.installed
          ⟨package, manifest.version, staged.files.length, staged.sha256, new,
            toolCollisionWarning package⟩,
        { w with
          db := w.db.insert package record
          user := user
          needs := Function.update w.needs package
            (manifestRequirements env.packaging manifest) })

def install (env : Env) (channel : String) : (fuel : Nat) → (stack : List Name) →
    (name : String) → (version : Option String) → World → Option (Result × World)
  | 0, _, _, _, _ => none
  | fuel + 1, stack, name, version, w =>
    match canonicalize name with
    | none => some (.failed ⟨"", .invalidName, false⟩, w)
    | some package =>
      if package ∈ stack then
        some (.failed ⟨package, .cycle (stack ++ [package]), true⟩, w)
      else
        let t := w.txns
        let w := { w with txns := t + 1 }
        match resolve env t package version channel with
        | .error e => some (.failed ⟨package, e, true⟩, w)
        | .ok manifest =>
          match installDependencies env.packaging
              (install env channel fuel (stack ++ [package])) w.db
              (manifestRequirements env.packaging manifest) [] w with
          | none => none
          | some (some e, new, w) =>
            some (.failed ⟨package, e, true⟩, uninstallAll new.reverse w)
          | some (none, new, w) =>
            some (installWheel env channel stack t package manifest new w)

end Zmux
