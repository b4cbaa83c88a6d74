import Mathlib.Data.Char
import Mathlib.Data.List.Lex
import Mathlib.Data.List.Sort
import Zmux.LinuxInstall
import Zmux.PathLookup
import Zmux.SystemCalls

/-!
# Extracting a tar archive

`TarFile.extractall` with the members as they are (`fully_trusted`), as
`_safe_extract` of `linuxenv.py` calls it, on a disk whose files are inodes:
a hard link is a second name of an inode, and what is written through one
name is read through the other. `open(.., "wb")`, `os.chmod`, `os.utime` and
`os.path.exists` follow links, `os.mkdir`, `os.symlink`, `os.link`,
`os.mknod` and `os.unlink` do not follow the last name.

Where a link cannot be made, `makelink` extracts the member that it names in
its place, and an `ExtractError` is only logged. The locals of a run are the
history of the paths that it has used, which nothing in it reads.
-/

namespace Zmux

namespace TarDisk

open PathTree

abbrev Word := List Char

structure Attr where
  mode : ℕ
  mtime : ℕ
  owner : ℕ
deriving DecidableEq

structure Inode where
  bytes : List UInt8
  attr : Attr
deriving DecidableEq

structure Disk where
  /-- A file is the number of its inode. -/
  tree : PathTree Word ℕ
  inode : ℕ → Inode
  /-- Those of the directories. -/
  attr : List Word → Attr
  next : ℕ
  fresh : ∀ q n, tree.entry q = some (.file n) → n < next

inductive OSError where
  /-- `FileExistsError`. -/
  | fileExists
  | refused
deriving DecidableEq

inductive Raised where
  | os (e : OSError)
  /-- `ExtractError`, which is not fatal. -/
  | extract
  | key
  /-- A `TarInfo` without `_link_target`. -/
  | attribute
  | recursion
  | readError
  | unsafeArchive
deriving DecidableEq

/-- `symlink_exception`. -/
def Raised.fallsBack : Raised → Bool
  | .os _ | .attribute => true
  | _ => false

structure System where
  limit : ℕ
  fails : ℕ → Bool
  /-- How much of a file is written when that fails. -/
  copied : ℕ → ℕ
  target : List (Hop Word)
  superuser : Bool
  /-- Calls of `_extract_member` before a `RecursionError`. -/
  stack : ℕ
  /-- Older versions of `tarfile` extract what a link names in the `try`
  block too, and do not look at a directory before they set its attributes. -/
  older : Bool
  /-- Newer versions unlink what a hard link replaces. -/
  relinks : Bool
  newAttr : Attr

def System.faults (sys : System) : Faults OSError Raised := ⟨sys.fails, .refused, .os⟩

/-! ## Disks -/

namespace Disk

variable (d : Disk) (p : List Word)

def enter (e : TreeEntry Word ℕ) (h : d.tree.Puts p) (he : ∀ n, e = .file n → n < d.next) :
    Disk :=
  { d with
    tree := d.tree.put p e h
    fresh := fun q n hq => by
      by_cases heq : q = p
      · rw [heq, entry_put_self h] at hq
        exact he n (Option.some.inj hq)
      · rw [entry_put_ne h heq] at hq
        exact d.fresh q n hq }

/-- A file of its own. -/
def create (i : Inode) (h : d.tree.Puts p) : Disk where
  tree := d.tree.put p (.file d.next) h
  inode := Function.update d.inode d.next i
  attr := d.attr
  next := d.next + 1
  fresh q n hq := by
    by_cases heq : q = p
    · rw [heq, entry_put_self h] at hq
      obtain rfl := TreeEntry.file.inj (Option.some.inj hq)
      exact Nat.lt_succ_self _
    · rw [entry_put_ne h heq] at hq
      exact Nat.lt_succ_of_lt (d.fresh q n hq)

def makeDir (a : Attr) (h : d.tree.Puts p) : Disk :=
  { d.enter p .dir h (fun _ he => by cases he) with attr := Function.update d.attr p a }

def remove (hp : p ≠ []) : Disk :=
  { d with
    tree := d.tree.erase p
    fresh := fun q n hq => by
      rw [entry_erase _ hp] at hq
      split_ifs at hq
      exact d.fresh q n hq }

def setInode (n : ℕ) (i : Inode) : Disk := { d with inode := Function.update d.inode n i }

def setAttr (a : Attr) : Disk := { d with attr := Function.update d.attr p a }

end Disk

/-! ## Paths -/

/-- The text of a path: what it starts from, and its names. -/
structure FsPath where
  base : List (Hop Word)
  comps : List Word

def comps (text : Word) : List Word := (text.splitOn '/').filter fun c => decide (c ≠ [])

def hops (names : List Word) : List (Hop Word) :=
  (names.filter fun c => decide (c ≠ ['.'])).map fun c => if c = ['.', '.'] then .up else .into c

namespace FsPath

def hops (path : FsPath) : List (Hop Word) := path.base ++ TarDisk.hops path.comps

/-- `os.path.dirname`, where there is a name. -/
def parent (path : FsPath) : FsPath := ⟨path.base, path.comps.dropLast⟩

end FsPath

/-- A path at the moment when it is used. -/
structure Turn where
  tree : PathTree Word ℕ
  path : FsPath

abbrev Session := CallState Disk (List Turn)

abbrev Call := EStateM Raised Session

def turn (path : FsPath) : Call PUnit :=
  modify fun s => { s with locals := ⟨s.disk.tree, path⟩ :: s.locals }

variable (sys : System)

/-- `os.path.join` of the target and a name. -/
def System.path (name : Word) : FsPath :=
  ⟨if name.head? = some '/' then [] else sys.target, comps name⟩

/-- With links followed. A name that ends in `.` is that of a directory. -/
def locate (path : FsPath) (d : Disk) : Option (List Word) :=
  match d.tree.find sys.limit [] path.hops with
  | some p => if path.comps.getLast? = some ['.'] ∧ ¬isDirAt d.tree p then none else some p
  | none => none

/-- With the last name as it is. -/
def slot (path : FsPath) (d : Disk) : Option (List Word) :=
  match path.comps.getLast? with
  | some name =>
    if name = ['.'] ∨ name = ['.', '.'] then none
    else match d.tree.find sys.limit [] path.parent.hops with
      | some dir => if isDirAt d.tree dir then some (dir ++ [name]) else none
      | none => none
  | none => none

/-! ## Looking -/

/-- `os.path.exists`. -/
def exists? (path : FsPath) (d : Disk) : Bool :=
  match locate sys path d with
  | some p => (d.tree.entry p).isSome
  | none => false

def lexists (path : FsPath) (d : Disk) : Bool :=
  match slot sys path d with
  | some p => (d.tree.entry p).isSome
  | none => exists? sys path d

def isDir (path : FsPath) (d : Disk) : Bool :=
  match locate sys path d with
  | some p => isDirAt d.tree p
  | none => false

/-- What cannot be looked at is not there. -/
def stat (f : Disk → Bool) : Call Bool :=
  tryCatch (sys.faults.look fun d => .ok (f d)) fun _ => pure false

/-- `os.lstat` of a directory: something else, and what is not there, is
passed over. -/
def lstatDir (path : FsPath) (d : Disk) : Bool :=
  match slot sys path d with
  | some p => isDirAt d.tree p
  | none => isDir sys path d

/-! ## Changing -/

abbrev call (f : Disk → Except OSError Disk) : Call PUnit := sys.faults.call f

/-- Make something where there is nothing. -/
def make (path : FsPath) (d : Disk) (f : (p : List Word) → d.tree.Puts p → Disk) :
    Except OSError Disk :=
  match slot sys path d with
  | none => .error (if exists? sys path d then .fileExists else .refused)
  | some p =>
    if (d.tree.entry p).isSome then .error .fileExists
    else if h : d.tree.Puts p then .ok (f p h)
    else .error .refused

def mkdir (path : FsPath) (d : Disk) : Except OSError Disk :=
  make sys path d fun p h => d.makeDir p sys.newAttr h

/-- `os.mkfifo` and `os.mknod`. -/
def mknod (path : FsPath) (d : Disk) : Except OSError Disk :=
  make sys path d fun p h => d.create p ⟨[], sys.newAttr⟩ h

def symlink (linkname : Word) (path : FsPath) (d : Disk) : Except OSError Disk :=
  make sys path d fun p h =>
    d.enter p (.link (linkname.head? = some '/') (hops (comps linkname))) h fun _ he => by cases he

/-- `os.link`, of a link itself where the source is one. -/
def link (src dst : FsPath) (d : Disk) : Except OSError Disk :=
  match slot sys src d with
  | none => .error .refused
  | some p =>
    match he : d.tree.entry p with
    | none => .error .refused
    | some .dir => .error .refused
    | some e => make sys dst d fun r h =>
        d.enter r e h fun n hn => d.fresh p n (he.trans (congrArg some hn))

def unlink (path : FsPath) (d : Disk) : Except OSError Disk :=
  match slot sys path d with
  | none => .error .refused
  | some p =>
    match d.tree.entry p with
    | none => .error .refused
    | some .dir => .error .refused
    | some _ => if hp : p ≠ [] then .ok (d.remove p hp) else .error .refused

/-- `open(.., "wb")`: a file that is there is emptied, under all its names. -/
def openWb (path : FsPath) (d : Disk) : Except OSError Disk :=
  match locate sys path d with
  | none => .error .refused
  | some p =>
    match d.tree.entry p with
    | some (.file n) => .ok (d.setInode n { d.inode n with bytes := [] })
    | none => if h : d.tree.Puts p then .ok (d.create p ⟨[], sys.newAttr⟩ h) else .error .refused
    | some _ => .error .refused

def setBytes (path : FsPath) (bytes : List UInt8) (d : Disk) : Except OSError Disk :=
  match locate sys path d with
  | none => .error .refused
  | some p =>
    match d.tree.entry p with
    | some (.file n) => .ok (d.setInode n { d.inode n with bytes := bytes })
    | _ => .error .refused

/-- `tarfile.copyfileobj` into the file just opened. -/
def copyfileobj (path : FsPath) (bytes : List UInt8) : Call PUnit := do
  let s ← get
  sys.faults.write (setBytes sys path bytes) (setBytes sys path (bytes.take (sys.copied s.calls)))

/-- `os.chown`, `os.chmod` and `os.utime`. -/
def setAttr (path : FsPath) (change : Attr → Attr) (d : Disk) : Except OSError Disk :=
  match locate sys path d with
  | none => .error .refused
  | some p =>
    match d.tree.entry p with
    | some (.file n) => .ok (d.setInode n { d.inode n with attr := change (d.inode n).attr })
    | some .dir => .ok (d.setAttr p (change (d.attr p)))
    | _ => .error .refused

/-- `os.lchown`. What a link has is not kept. -/
def setAttrHere (path : FsPath) (change : Attr → Attr) (d : Disk) : Except OSError Disk :=
  match slot sys path d with
  | none => .error .refused
  | some p =>
    match d.tree.entry p with
    | some (.file n) => .ok (d.setInode n { d.inode n with attr := change (d.inode n).attr })
    | some .dir => .ok (d.setAttr p (change (d.attr p)))
    | some _ => .ok d
    | none => .error .refused

/-! ## `tarfile` -/

inductive Kind where
  | regular
  | directory
  | symlink
  | hardlink
  /-- A FIFO or a device. -/
  | special
  /-- Extracted like a regular file. -/
  | unknown
deriving DecidableEq

def Kind.isLink : Kind → Bool
  | .symlink | .hardlink => true
  | _ => false

/-- `TarInfo`. -/
structure TarMember where
  name : Word
  kind : Kind
  linkname : Word
  size : ℕ
  bytes : List UInt8
  attr : Attr

/-- `os.makedirs`, from the last name backwards. -/
def makedirsBack (base : List (Hop Word)) : List Word → Call PUnit
  | [] => call sys (mkdir sys ⟨base, []⟩)
  | c :: above => do
    let there ← stat sys (exists? sys ⟨base, above.reverse⟩)
    if there then call sys (mkdir sys ⟨base, (c :: above).reverse⟩)
    else do
      tryCatch (makedirsBack base above) fun e => if e = .os .fileExists then pure ⟨⟩ else throw e
      if c = ['.'] then pure ⟨⟩ else call sys (mkdir sys ⟨base, (c :: above).reverse⟩)

/-- "Create all upper directories." -/
def upperdirs (path : FsPath) : Call PUnit := do
  let there ← stat sys (exists? sys path.parent)
  if there then pure ⟨⟩ else makedirsBack sys path.base path.parent.comps.reverse

/-- `makefile`. -/
def makefile (m : TarMember) (path : FsPath) : Call PUnit := do
  call sys (openWb sys path)
  copyfileobj sys path m.bytes

/-- `makedir`. -/
def makedir (path : FsPath) : Call PUnit :=
  tryCatch (call sys (mkdir sys path)) fun e =>
    if e = .os .fileExists then do
      let there ← stat sys (isDir sys path)
      if there then pure ⟨⟩ else throw e
    else throw e

/-- What takes the place of something else. -/
def replacing (path : FsPath) (x : Call PUnit) : Call PUnit := do
  let there ← stat sys (lexists sys path)
  if there then do
    call sys (unlink sys path)
    x
  else x

/-- Anything but a link. -/
def makeMember (m : TarMember) (path : FsPath) : Call PUnit :=
  match m.kind with
  | .directory => makedir sys path
  | .special => call sys (mknod sys path)
  | _ => makefile sys m path

/-- An error of `chown`, `chmod` or `utime` is an `ExtractError`. -/
def setting (f : Disk → Except OSError Disk) : Call PUnit :=
  tryCatch (call sys f) fun _ => throw .extract

def chown (m : TarMember) (path : FsPath) : Call PUnit :=
  if sys.superuser then setting sys (setAttr sys path fun a => { a with owner := m.attr.owner })
  else pure ⟨⟩

def chmod (m : TarMember) (path : FsPath) : Call PUnit :=
  setting sys (setAttr sys path fun a => { a with mode := m.attr.mode })

def utime (m : TarMember) (path : FsPath) : Call PUnit :=
  setting sys (setAttr sys path fun a => { a with mtime := m.attr.mtime })

/-- After a member is made; a symbolic link has `lchown` only. -/
def setAttrs (m : TarMember) (path : FsPath) : Call PUnit :=
  if m.kind = .symlink then
    if sys.superuser then do
      turn path.parent
      setting sys (setAttrHere sys path fun a => { a with owner := m.attr.owner })
    else pure ⟨⟩
  else do
    turn path
    chown sys m path
    chmod sys m path
    utime sys m path

/-- `os.path.dirname` of a text. -/
def dirname (text : Word) : Word :=
  let head := (text.reverse.dropWhile fun c => decide (c ≠ '/')).reverse
  if head.all (· = '/') then head else (head.reverse.dropWhile (· = '/')).reverse

/-- `os.path.normpath`: whether it is absolute, and its names. -/
def normpath (text : Word) : Bool × List Word :=
  let absolute := text.head? = some '/'
  (absolute, (comps text).foldl (fun acc c =>
    if c = ['.'] then acc
    else if c ≠ ['.', '.'] ∨ (¬absolute ∧ acc = []) ∨ acc.getLast? = some ['.', '.'] then acc ++ [c]
    else acc.dropLast) [])

/-- `_getmember`, the last member first, with the members before it. -/
def getMember : List TarMember → Word → Option (List TarMember × TarMember)
  | [], _ => none
  | m :: before, name =>
    if normpath m.name = normpath name then some (before, m) else getMember before name

/-- `_find_link_target`: for a symbolic link in the whole archive, for a hard
link among the members before it. -/
def findLinkTarget (archive before : List TarMember) (m : TarMember) :
    Option (List TarMember × TarMember) :=
  if m.kind = .symlink then
    getMember archive (List.intercalate ['/']
      ([dirname m.name, m.linkname].filter fun part => decide (part ≠ [])))
  else getMember before m.linkname

def linking (src path : FsPath) : Call PUnit := do
  turn src.parent
  call sys (link sys src path)

/-- The link itself, if there is something to link to. Only for the members
that `extractall` goes through, `_link_target` is set. -/
def linkItself (linked : Bool) (m : TarMember) (path : FsPath) : Call Bool :=
  if m.kind = .symlink then do
    replacing sys path (call sys (symlink sys m.linkname path))
    pure true
  else if linked then do
    let source := sys.path m.linkname
    let there ← stat sys (exists? sys source)
    if there then do
      if sys.relinks then replacing sys path (linking sys source path)
      else linking sys source path
      pure true
    else pure false
  else throw .attribute

/-- `again` extracts the member that `m` names, at the path of `m`. -/
def extractTarget (archive before : List TarMember) (m : TarMember) (missing : Raised)
    (again : List TarMember → TarMember → Call PUnit) : Call PUnit :=
  match findLinkTarget archive before m with
  | none => throw missing
  | some (before, found) => again before found

def makelink (archive : List TarMember) (linked : Bool) (before : List TarMember) (m : TarMember)
    (path : FsPath) (again : List TarMember → TarMember → Call PUnit) : Call PUnit :=
  if sys.older then
    tryCatch (do
        let made ← linkItself sys linked m path
        if made then pure ⟨⟩ else extractTarget archive before m .key again)
      fun e =>
        if e.fallsBack then
          tryCatch (extractTarget archive before m .key again) fun e =>
            throw (if e = .key then .extract else e)
        else throw e
  else do
    let missing ← tryCatch (do
        let made ← linkItself sys linked m path
        pure (if made then none else some .key))
      fun e => if e.fallsBack then pure (some .extract) else throw e
    match missing with
    | none => pure ⟨⟩
    | some missing => extractTarget archive before m missing again

/-- Where a member is made: for a link, the directory. -/
def TarMember.place (m : TarMember) (path : FsPath) : FsPath :=
  if m.kind.isLink then path.parent else path

/-- `_extract_member`. The lists are the archive and the members before `m`,
the last one first. -/
def extractMember (archive : List TarMember) :
    ℕ → (linked attrs : Bool) → List TarMember → TarMember → FsPath → Call PUnit
  | 0, _, _, _, _, _ => throw .recursion
  | stack + 1, linked, attrs, before, m, path => do
    turn (m.place path)
    upperdirs sys path
    if m.kind.isLink then
      makelink sys archive linked before m path fun before found =>
        extractMember archive stack false true before found path
    else makeMember sys m path
    if attrs then setAttrs sys m path else pure ⟨⟩

inductive Step where
  | extract (before : List TarMember) (m : TarMember)
  /-- "Set correct owner, mtime and filemode on directories." -/
  | attributes (m : TarMember)

/-- An `ExtractError` is logged. -/
def run (archive : List TarMember) (step : Step) : Call PUnit :=
  tryCatch
    (match step with
    | .extract before m =>
      extractMember sys archive sys.stack true (m.kind ≠ .directory) before m (sys.path m.name)
    | .attributes m => do
      let there ← if sys.older then pure true
        else sys.faults.look fun d => .ok (lstatDir sys (sys.path m.name) d)
      if there then do
        turn (sys.path m.name)
        chown sys m (sys.path m.name)
        utime sys m (sys.path m.name)
        chmod sys m (sys.path m.name)
      else pure ⟨⟩)
    fun e => if e = .extract then pure ⟨⟩ else throw e

def extracts : (before members : List TarMember) → List Step
  | _, [] => []
  | before, m :: members => .extract before m :: extracts (m :: before) members

/-- The steps of `extractall`. -/
def steps (members : List TarMember) : List Step :=
  extracts [] members
    ++ ((members.filter fun m => m.kind = .directory).mergeSort
        fun m m' => decide (m'.name ≤ m.name)).map .attributes

/-- What `_safe_extract` looks at. -/
def TarMember.listed (m : TarMember) : LinuxInstall.Member :=
  ⟨m.name, m.kind = .regular, m.kind = .directory, m.size⟩

/-- `_safe_extract`; `none` is what `tarfile` cannot read. -/
def safeExtract (archive : Option (List TarMember)) : Call PUnit :=
  match archive with
  | none => throw .readError
  | some members =>
    if LinuxInstall.acceptable (members.map TarMember.listed) then
      (steps members).forM (run sys members.reverse)
    else throw .unsafeArchive

end TarDisk

end Zmux
