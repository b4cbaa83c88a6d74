import Mathlib.Logic.Function.Basic
import Mathlib.Order.Nat

/-!
# Installing the root file system

`install` of `linuxenv.py`, for any number of calls at once: each call
takes its own steps on the one disk. The tarball is a name for an inode,
so a call that has it open reads what others write to it; the digest is
that of the stream a call received, not of the file. `tarfile` only logs that
a link could not be made or attributes not be set, so a call that fails need
not be an exception (`swallowed`). `Moved` is all that a step may do.
-/

namespace Zmux

namespace LinuxInstall

/-! ## The disk -/

structure Attr where
  mode : ℕ
  mtime : ℕ
  owner : ℕ
deriving DecidableEq

inductive Entry where
  | file (bytes : List UInt8) (attr : Attr)
  | dir (attr : Attr)
  | link (target : String)
  /-- A FIFO or a device. -/
  | special (attr : Attr)
deriving DecidableEq

/-- What is below a directory. -/
abbrev Tree := String → Option Entry

def Tree.keep (kept : String → Bool) (files : Tree) : Tree := fun path =>
  if kept path then files path else none

/-- What the host makes of a path below a directory, with links followed:
`Path.is_file`, `Path.mkdir` with parents and `Path.write_text`. Taking
something away makes no file, and the other two take none away. -/
structure Host where
  isFile : Tree → String → Bool
  mkdir : String → Tree → Tree
  writeText : String → List UInt8 → Tree → Tree
  isFile_empty : ∀ path, isFile (fun _ => none) path = false
  isFile_keep : ∀ kept files path, isFile (files.keep kept) path = true → isFile files path = true
  isFile_mkdir : ∀ dir files path, isFile files path = true → isFile (mkdir dir files) path = true
  isFile_writeText : ∀ name bytes files path, isFile files path = true →
    isFile (writeText name bytes files) path = true

/-- `dir` is anything else that exists, also a regular file. -/
inductive Place where
  | absent
  | empty
  | dir (files : Tree)

namespace Place

def tree : Place → Tree
  | .dir files => files
  | .absent | .empty => fun _ => none

/-- What `rmtree` leaves of it, or has left of it so far. -/
def keep (kept : String → Bool) : Place → Place
  | .dir files => .dir (files.keep kept)
  | place => place

def isFile (host : Host) (place : Place) (path : String) : Bool := host.isFile place.tree path

end Place

/-- `content` and `next` are of the inodes that the tarball may be. -/
structure Disk where
  rootfs : Place
  staging : Place
  tarball : Option ℕ
  content : ℕ → List UInt8
  next : ℕ

namespace Disk

/-- `is_installed`. -/
def isInstalled (host : Host) (d : Disk) : Bool :=
  d.rootfs.isFile host "bin/busybox" && d.rootfs.isFile host "etc/alpine-release"

/-- The inode that `tarball.open("wb")` opens. -/
def inode (d : Disk) : ℕ := d.tarball.getD d.next

def truncate (d : Disk) : Disk :=
  { d with
    tarball := some d.inode
    content := Function.update d.content d.inode []
    next := max d.next (d.inode + 1) }

/-- A write at a position; what is missing before it is zero. -/
def write (d : Disk) (i position : ℕ) (bytes : List UInt8) : Disk :=
  let old := d.content i
  let front := old.take position ++ List.replicate (position - old.length) 0
  { d with
    content := Function.update d.content i (front ++ bytes ++ old.drop (position + bytes.length)) }

def unlink (d : Disk) : Disk := { d with tarball := none }

end Disk

/-! ## The archive -/

structure Member where
  name : List Char
  isFile : Bool
  isDir : Bool
  size : ℕ
deriving DecidableEq

/-- SHA-512 and the pinned digest; `tarfile.open` with `getmembers`, by the
bytes that the file has then (`none` is an exception); the mirror.

`extract` makes a member, by what the file was when it was opened and what
it is now, and `attributes` sets those of a directory at the end. Both are
given the calls of the system that fail, by their number; an exception leaves
what has been done. -/
structure Env where
  sha512 : List UInt8 → List UInt8
  expected : List UInt8
  members : List UInt8 → Option (List Member)
  extract : (opened now : List UInt8) → ℕ → (fails : List ℕ) → Tree → Except Tree Tree
  attributes : (opened : List UInt8) → ℕ → (fails : List ℕ) → Tree → Except Tree Tree
  host : Host
  mirror : String

/-- The members, and the directories once more. -/
def stepCount (members : List Member) : ℕ :=
  members.length + (members.filter Member.isDir).length

/-- A step of `extractall`. -/
def Env.extractStep (env : Env) (opened now : List UInt8) (members : List Member) (k : ℕ)
    (fails : List ℕ) (files : Tree) : Except Tree Tree :=
  if k < members.length then env.extract opened now k fails files
  else env.attributes opened (k - members.length) fails files

def maxRootfsBytes : ℕ := 256 * 1024 * 1024

/-- The checks of `_safe_extract`. -/
def Member.isUnsafe (m : Member) : Bool :=
  m.name.head? == some '/' || (m.name.splitOn '/').any (· == ['.', '.'])

def acceptable (members : List Member) : Bool :=
  !members.any Member.isUnsafe
    && Nat.ble (((members.filter Member.isFile).map Member.size).foldl Nat.add 0) maxRootfsBytes

def ascii (text : String) : List UInt8 := text.toList.map fun c => c.toNat.toUInt8

/-- Write a file unless there is one. -/
def fill (host : Host) (files : Tree) (path : String) (content : List UInt8) : Tree :=
  if host.isFile files path then files else host.writeText path content files

/-- `_bootstrap`; `resolv` is what it copied of the host's `resolv.conf`. -/
def bootstrap (env : Env) (resolv : Option (List UInt8)) (files : Tree) : Tree :=
  let repositories := ascii (env.mirror ++ "/v3.22/main\n" ++ env.mirror ++ "/v3.22/community\n")
  let files := env.host.mkdir "etc/apk" files
  let files := env.host.writeText "etc/apk/repositories" repositories files
  let files := match resolv with
    | some content => env.host.writeText "etc/resolv.conf" content files
    | none => files
  let files :=
    fill env.host files "etc/resolv.conf" (ascii "nameserver 8.8.8.8\nnameserver 1.1.1.1\n")
  fill env.host files "etc/alpine-release" (ascii "3.22.5\n")

theorem isFile_fill {host : Host} {files : Tree} {path : String}
    (h : host.isFile files path = true) (name : String) (content : List UInt8) :
    host.isFile (fill host files name content) path = true := by
  rw [fill]
  split
  · exact h
  · exact host.isFile_writeText name content files path h

/-- The bootstrap takes no file away. -/
theorem isFile_bootstrap {env : Env} {files : Tree} {path : String}
    (h : env.host.isFile files path = true) (resolv : Option (List UInt8)) :
    env.host.isFile (bootstrap env resolv files) path = true := by
  refine isFile_fill (isFile_fill ?_ _ _) _ _
  have hrepositories := env.host.isFile_writeText "etc/apk/repositories"
    (ascii (env.mirror ++ "/v3.22/main\n" ++ env.mirror ++ "/v3.22/community\n")) _ path
    (env.host.isFile_mkdir "etc/apk" files path h)
  cases resolv with
  | none => exact hrepositories
  | some content => exact env.host.isFile_writeText _ content _ path hrepositories

/-! ## A call -/

/-- Where a call is. `received` is the stream that was hashed. -/
inductive Pc where
  | idle
  | checked
  | requesting
  | opening
  | downloading (inode : ℕ) (received : List UInt8)
  | downloaded (received : List UInt8)
  /-- About to delete the tarball and raise. -/
  | failing
  | verified (received : List UInt8)
  /-- The staging directory is cleared. -/
  | creating (received : List UInt8)
  | archiving (received : List UInt8)
  /-- The archive is open at an inode, and `opened` is what it was then. -/
  | extracting (received : List UInt8) (inode : ℕ) (opened : List UInt8) (members : List Member)
      (next : ℕ)
  | swapping
  | removing
  | replacing
  /-- The `finally` block. -/
  | cleaningTarball (ok : Bool)
  | cleaningStaging (ok : Bool)
  /-- About to read the version that `install` returns. -/
  | reading (already : Bool)
  | returned (already : Bool)
  /-- `started` says whether there was an extraction to clean up after. -/
  | raised (started : Bool)
deriving DecidableEq

/-- How `rmtree` ends. -/
inductive Leftover where
  | gone
  | emptied
  | rest
deriving DecidableEq

def Leftover.of : Leftover → Place → Place
  | .gone, _ => .absent
  | .emptied, _ => .empty
  | .rest, place => place

inductive Move where
  | call
  | prepare
  /-- The response comes, with its `Content-Length`. -/
  | announce (length : ℕ)
  | openTarball
  | chunk (bytes : List UInt8)
  /-- A write that raises, after some bytes. -/
  | writeFails (bytes : List UInt8)
  | endOfBody
  | compare
  | unlink
  | clear (left : Leftover) (kept : String → Bool)
  | mkdir
  | openArchive
  | extract (fails : List ℕ)
  | bootstrap (resolv : Option (List UInt8))
  | swap
  | remove (kept : String → Bool)
  | removed (left : Leftover)
  | replace
  | cleanTarball
  | cleanStaging
  | version
  | raise

/-- Where an exception leads. The cleanup does not raise. -/
def Pc.onRaise : Pc → Option Pc
  | .checked | .failing | .verified _ | .creating _ => some (.raised false)
  | .requesting | .opening | .downloading .. => some .failing
  | .archiving _ | .extracting .. | .swapping | .removing | .replacing =>
    some (.cleaningTarball false)
  | .reading already => some (.raised !already)
  | .idle | .downloaded _ | .cleaningTarball _ | .cleaningStaging _ | .returned _
  | .raised _ => none

def stepCall (env : Env) (d : Disk) (pc : Pc) : Move → Option (Disk × Pc)
  | .call =>
    match pc with
    | .idle => some (d, if d.isInstalled env.host then .reading true else .checked)
    | _ => none
  | .prepare =>
    match pc with
    | .checked => some (d, .requesting)
    | _ => none
  | .announce length =>
    match pc with
    | .requesting => some (d, if maxRootfsBytes < length then .failing else .opening)
    | _ => none
  | .openTarball =>
    match pc with
    | .opening => some (d.truncate, .downloading d.inode [])
    | _ => none
  | .chunk bytes =>
    match pc with
    | .downloading i received =>
      if bytes = [] ∨ 64 * 1024 < bytes.length then none
      else if maxRootfsBytes < received.length + bytes.length then some (d, .failing)
      else some (d.write i received.length bytes, .downloading i (received ++ bytes))
    | _ => none
  | .writeFails bytes =>
    match pc with
    | .downloading i received => some (d.write i received.length bytes, .failing)
    | _ => none
  | .endOfBody =>
    match pc with
    | .downloading _ received => some (d, .downloaded received)
    | _ => none
  | .compare =>
    match pc with
    | .downloaded received =>
      some (d, if env.sha512 received = env.expected then .verified received else .failing)
    | _ => none
  | .unlink =>
    match pc with
    | .failing => some (d.unlink, .raised false)
    | _ => none
  | .clear left kept =>
    match pc with
    | .verified received =>
      match d.staging with
      | .absent => some (d, .creating received)
      | staging => some ({ d with staging := left.of (staging.keep kept) }, .creating received)
    | _ => none
  | .mkdir =>
    match pc with
    | .creating received =>
      match d.staging with
      | .absent => some ({ d with staging := .empty }, .archiving received)
      | _ => some (d, .raised false)
    | _ => none
  | .openArchive =>
    match pc with
    | .archiving received =>
      match d.tarball with
      | none => some (d, .cleaningTarball false)
      | some i =>
        match env.members (d.content i) with
        | none => some (d, .cleaningTarball false)
        | some members =>
          some (d, if acceptable members then .extracting received i (d.content i) members 0
            else .cleaningTarball false)
    | _ => none
  | .extract fails =>
    match pc with
    | .extracting received i opened members k =>
      if k < stepCount members then
        match env.extractStep opened (d.content i) members k fails d.staging.tree with
        | .error files => some ({ d with staging := .dir files }, .cleaningTarball false)
        | .ok files =>
          some ({ d with staging := .dir files }, .extracting received i opened members (k + 1))
      else none
    | _ => none
  | .bootstrap resolv =>
    match pc with
    | .extracting _ _ _ members k =>
      if k = stepCount members then
        some ({ d with staging := .dir (bootstrap env resolv d.staging.tree) }, .swapping)
      else none
    | _ => none
  | .swap =>
    match pc, d.rootfs with
    | .swapping, .absent => some (d, .replacing)
    | .swapping, _ => some (d, .removing)
    | _, _ => none
  | .remove kept =>
    match pc with
    | .removing => some ({ d with rootfs := d.rootfs.keep kept }, .removing)
    | _ => none
  | .removed left =>
    match pc with
    | .removing => some ({ d with rootfs := left.of d.rootfs }, .replacing)
    | _ => none
  | .replace =>
    match pc with
    | .replacing =>
      match d.staging, d.rootfs with
      | .absent, _ | _, .dir _ => some (d, .cleaningTarball false)
      | staging, _ =>
        some ({ d with rootfs := staging, staging := .absent }, .cleaningTarball true)
    | _ => none
  | .cleanTarball =>
    match pc with
    | .cleaningTarball ok => some (d.unlink, .cleaningStaging ok)
    | _ => none
  | .cleanStaging =>
    match pc with
    | .cleaningStaging ok =>
      some ({ d with staging := .absent }, if ok then .reading false else .raised true)
    | _ => none
  | .version =>
    match pc with
    | .reading already => some (d, .returned already)
    | _ => none
  | .raise => pc.onRaise.map fun next => (d, next)

/-- A call of the system that `tarfile` makes fails, and that is no
exception: a link that could not be made is a copy, or left out, or attributes
are not set. -/
def swallowed (env : Env) (d : Disk) (pc : Pc) (m : Move) : Bool :=
  match m, pc with
  | .extract fails, .extracting _ i opened members k =>
    !fails.isEmpty
      && (env.extractStep opened (d.content i) members k fails d.staging.tree).toBool
  | _, _ => false

/-- The calls on one disk. -/
structure State (ι : Type*) where
  disk : Disk
  pc : ι → Pc

section Calls

variable {ι : Type*} [DecidableEq ι]

def start (disk : Disk) : State ι := ⟨disk, fun _ => .idle⟩

def step (env : Env) (s : State ι) (a : ι × Move) : Option (State ι) :=
  (stepCall env s.disk (s.pc a.1) a.2).map fun next => ⟨next.1, Function.update s.pc a.1 next.2⟩

end Calls

/-! ## What a step does -/

namespace Pc

/-- The call relies on what the tarball holds. -/
def inFlight : Pc → Bool
  | .downloading .. | .downloaded _ | .verified _ | .creating _ | .archiving _ => true
  | .extracting _ _ _ members k => k < members.length
  | _ => false

/-- The call relies on the staging directory. -/
def inRegion : Pc → Bool
  | .archiving _ | .extracting .. | .swapping | .removing | .replacing => true
  | _ => false

/-- The live tree is installed, as far as the call knows. -/
def succeeded : Pc → Bool
  | .cleaningTarball ok | .cleaningStaging ok => ok
  | .reading _ | .returned _ => true
  | _ => false

/-- The call relies on nothing, and has left nothing to clean up after. -/
def isQuiet : Pc → Bool
  | .idle | .checked | .requesting | .opening | .failing => true
  | .cleaningTarball ok => !ok
  | .raised started => !started
  | _ => false

/-- The call is past the swap, or has given up on it. -/
def isSettled : Pc → Bool
  | .cleaningTarball _ | .cleaningStaging _ | .reading _ | .returned _ | .raised _ => true
  | _ => false

theorem inFlight_of_isQuiet {pc : Pc} (h : pc.isQuiet) : pc.inFlight = false := by
  cases pc <;> simp_all [isQuiet, inFlight]

theorem inRegion_of_isQuiet {pc : Pc} (h : pc.isQuiet) : pc.inRegion = false := by
  cases pc <;> simp_all [isQuiet, inRegion]

theorem succeeded_of_isQuiet {pc : Pc} (h : pc.isQuiet) : pc.succeeded = false := by
  cases pc <;> simp_all [isQuiet, succeeded]

end Pc

/-- It truncates the tarball. -/
def Move.opens : Move → Bool
  | .openTarball => true
  | _ => false

/-- It removes what is in the staging directory. -/
def Move.clears : Move → Bool
  | .clear .. | .cleanStaging => true
  | _ => false

/-- It removes the live tree, or some of it. -/
def Move.removes : Move → Bool
  | .remove _ | .removed _ => true
  | _ => false

/-- All that a call's step may do. -/
inductive Moved (env : Env) (d : Disk) : Pc → Move → Disk → Pc → Prop
  | quiet {pc m next} (hnext : next.isQuiet) (hpc : pc.isSettled = false) : Moved env d pc m d next
  | already (h : d.isInstalled env.host) : Moved env d .idle .call d (.reading true)
  | openTarball : Moved env d .opening .openTarball d.truncate (.downloading d.inode [])
  | chunk {i r} (bytes) : Moved env d (.downloading i r) (.chunk bytes)
      (d.write i r.length bytes) (.downloading i (r ++ bytes))
  | writeFails {i r} (bytes) : Moved env d (.downloading i r) (.writeFails bytes)
      (d.write i r.length bytes) .failing
  | endOfBody {i r} : Moved env d (.downloading i r) .endOfBody d (.downloaded r)
  | compare {r} (h : env.sha512 r = env.expected) :
      Moved env d (.downloaded r) .compare d (.verified r)
  | unlink : Moved env d .failing .unlink d.unlink (.raised false)
  | clear {r left kept} (staging) : Moved env d (.verified r) (.clear left kept)
      { d with staging := staging } (.creating r)
  | mkdir {r} (h : d.staging = .absent) : Moved env d (.creating r) .mkdir
      { d with staging := .empty } (.archiving r)
  | openArchive {r i members} (hopen : d.tarball = some i)
      (h : env.members (d.content i) = some members) :
      Moved env d (.archiving r) .openArchive d (.extracting r i (d.content i) members 0)
  | extract {r i opened members k fails files} (hk : k < stepCount members)
      (h : env.extractStep opened (d.content i) members k fails d.staging.tree = .ok files) :
      Moved env d (.extracting r i opened members k) (.extract fails)
        { d with staging := .dir files } (.extracting r i opened members (k + 1))
  | extractRaises {r i opened members k fails} (files) :
      Moved env d (.extracting r i opened members k) (.extract fails)
        { d with staging := .dir files } (.cleaningTarball false)
  | bootstrap {r i opened members k} (resolv) (h : k = stepCount members) :
      Moved env d (.extracting r i opened members k) (.bootstrap resolv)
        { d with staging := .dir (bootstrap env resolv d.staging.tree) } .swapping
  | swap {next} (h : next = .removing ∨ next = .replacing) : Moved env d .swapping .swap d next
  | remove (kept) : Moved env d .removing (.remove kept)
      { d with rootfs := d.rootfs.keep kept } .removing
  | removed (left) : Moved env d .removing (.removed left)
      { d with rootfs := left.of d.rootfs } .replacing
  | replace (h : d.staging ≠ .absent) : Moved env d .replacing .replace
      { d with rootfs := d.staging, staging := .absent } (.cleaningTarball true)
  | cleanTarball {ok} : Moved env d (.cleaningTarball ok) .cleanTarball d.unlink
      (.cleaningStaging ok)
  | cleanStaging {ok} : Moved env d (.cleaningStaging ok) .cleanStaging
      { d with staging := .absent } (if ok then .reading false else .raised true)
  | version {already} : Moved env d (.reading already) .version d (.returned already)
  | stop {already} : Moved env d (.reading already) .raise d (.raised !already)

theorem moved_of_raise {env : Env} {d : Disk} {pc next : Pc} (h : pc.onRaise = some next) :
    Moved env d pc .raise d next := by
  cases pc <;> cases h <;> first | exact .stop | exact .quiet rfl rfl

theorem moved_of_stepCall {env : Env} {d d' : Disk} {pc pc' : Pc} {m : Move}
    (h : stepCall env d pc m = some (d', pc')) : Moved env d pc m d' pc' := by
  cases m with
  | call =>
      cases pc <;> cases h
      cases hd : d.isInstalled env.host with
      | true => exact .already hd
      | false => exact .quiet rfl rfl
  | prepare => cases pc <;> cases h; exact .quiet rfl rfl
  | announce length =>
      cases pc <;> cases h
      by_cases hlength : maxRootfsBytes < length
      · rw [if_pos hlength]
        exact .quiet rfl rfl
      · rw [if_neg hlength]
        exact .quiet rfl rfl
  | openTarball => cases pc <;> cases h; exact .openTarball
  | chunk bytes =>
      cases pc <;> simp only [stepCall] at h <;> try cases h
      split at h
      · cases h
      · split at h <;> cases h
        · exact .quiet rfl rfl
        · exact .chunk bytes
  | writeFails bytes => cases pc <;> cases h; exact .writeFails bytes
  | endOfBody => cases pc <;> cases h; exact .endOfBody
  | compare =>
      cases pc <;> cases h
      rename_i r
      by_cases hr : env.sha512 r = env.expected
      · rw [if_pos hr]
        exact .compare hr
      · rw [if_neg hr]
        exact .quiet rfl rfl
  | unlink => cases pc <;> cases h; exact .unlink
  | clear left kept =>
      cases pc <;> simp only [stepCall] at h <;> try cases h
      split at h <;> cases h
      · exact .clear d.staging
      · exact .clear _
  | mkdir =>
      cases pc <;> simp only [stepCall] at h <;> try cases h
      split at h <;> cases h
      · rename_i habsent
        exact .mkdir habsent
      · exact .quiet rfl rfl
  | openArchive =>
      cases pc <;> simp only [stepCall] at h <;> try cases h
      split at h
      · cases h
        exact .quiet rfl rfl
      · rename_i i hopen
        split at h
        · cases h
          exact .quiet rfl rfl
        · rename_i members hmembers
          cases h
          by_cases hok : acceptable members
          · rw [if_pos hok]
            exact .openArchive hopen hmembers
          · rw [if_neg hok]
            exact .quiet rfl rfl
  | extract fails =>
      cases pc <;> simp only [stepCall] at h <;> try cases h
      split at h
      · rename_i hk
        split at h <;> cases h
        · exact .extractRaises _
        · rename_i files hfiles
          exact .extract hk hfiles
      · cases h
  | bootstrap resolv =>
      cases pc <;> simp only [stepCall] at h <;> try cases h
      split at h <;> cases h
      rename_i hk
      exact .bootstrap resolv hk
  | swap =>
      cases pc <;> simp only [stepCall] at h <;> try cases h
      cases hrootfs : d.rootfs <;> rw [hrootfs] at h <;> cases h
      · exact .swap (.inr rfl)
      · exact .swap (.inl rfl)
      · exact .swap (.inl rfl)
  | remove kept => cases pc <;> cases h; exact .remove kept
  | removed left => cases pc <;> cases h; exact .removed left
  | replace =>
      cases pc <;> simp only [stepCall] at h <;> try cases h
      split at h <;> cases h
      · exact .quiet rfl rfl
      · exact .quiet rfl rfl
      · rename_i habsent _
        exact .replace habsent
  | cleanTarball => cases pc <;> cases h; exact .cleanTarball
  | cleanStaging => cases pc <;> cases h; exact .cleanStaging
  | version => cases pc <;> cases h; exact .version
  | raise =>
      obtain ⟨next, hnext, heq⟩ := Option.map_eq_some_iff.mp h
      cases heq
      exact moved_of_raise hnext

end LinuxInstall

end Zmux
