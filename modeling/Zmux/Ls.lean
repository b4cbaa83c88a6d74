import Mathlib.Data.Char
import Mathlib.Data.List.Lex
import Zmux.FileCommands
import Zmux.PathLookup

/-!
# `ls`

`_cmd_ls` of `python_shell.py` with `_ls_entries`, `_ls_format`, `_ls_flat`
and `_ls_recursive`, on a tree that nobody changes meanwhile.

A `Disk` is a tree of files, directories and links with what the system
tells of it besides: the order in which `iterdir` yields the names of a
directory, and what `stat` says of a file or a directory. `stat`, `exists`
and `is_dir` follow links, up to a limit, `is_symlink` does not follow the
last one. A tree is finite when its depth and its directories are.

`_ls_recursive` keeps the directories it has yet to list on a stack. The
loop runs on fuel, and `none` means that the fuel did not suffice.
-/

namespace Zmux

namespace Ls

open FileCommands (Word Context FileError)

/-- A path from the root, without `.` and `..`. -/
abbrev FilePath := List Word

/-- What of `os.stat_result` is read. The times are from any linear order. -/
structure Stat (τ : Type) where
  mode : ℕ
  size : ℕ
  mtime : τ

structure Disk (β : Type*) (τ : Type) where
  tree : PathTree Word β
  /-- So many links are followed. -/
  limit : ℕ
  /-- The names in a directory, as `iterdir` yields them. -/
  names : FilePath → List Word
  stat : FilePath → Stat τ
  depth : ℕ
  nodup_names : ∀ p, (names p).Nodup
  mem_names : ∀ p name, name ∈ names p ↔ tree.entry (p ++ [name]) ≠ none
  length_le : ∀ p, tree.entry p ≠ none → p.length ≤ depth

variable {β : Type*} {τ : Type}

/-- `path.name`. -/
def baseName (p : FilePath) : Word := p.getLast?.getD []

/-- `str(path)`. -/
def pathText (p : FilePath) : Word := '/' :: ['/'].intercalate p

/-! ## The system -/

namespace Disk

variable (d : Disk β τ)

/-- Where the path leads, if it leads to something. -/
def lookup (p : FilePath) : Option FilePath :=
  (d.tree.find d.limit [] (p.map .into)).filter fun r => (d.tree.entry r).isSome

def isDir (p : FilePath) : Bool :=
  match d.lookup p with
  | some r => d.tree.isDirAt r
  | none => false

def isSymlink (p : FilePath) : Bool :=
  match d.tree.find d.limit [] (p.dropLast.map .into), p.getLast? with
  | some q, some name => (d.tree.entry (q ++ [name])).any TreeEntry.isLink
  | _, _ => false

/-- `path.stat()`. -/
def statOf (p : FilePath) : Except FileError (Stat τ) :=
  match d.lookup p with
  | some r => .ok (d.stat r)
  | none => .error .fileNotFound

/-- `list(path.iterdir())`. -/
def iterdir (p : FilePath) : Except FileError (List FilePath) :=
  match d.lookup p with
  | some r =>
    if d.tree.isDirAt r then .ok ((d.names r).map fun name => p ++ [name])
    else .error .notADirectory
  | none => .error .fileNotFound

end Disk

/-! ## Options -/

structure Flags where
  showAll : Bool
  long : Bool
  recursive : Bool
  byTime : Bool
  reverse : Bool
deriving DecidableEq

/-- `_LS_OPTIONS`. -/
def lsOptions : List Char := ['a', 'l', 'R', 't', 'r']

def Flags.add (flags : Flags) (letters : Word) : Flags where
  showAll := flags.showAll || letters.contains 'a'
  long := flags.long || letters.contains 'l'
  recursive := flags.recursive || letters.contains 'R'
  byTime := flags.byTime || letters.contains 't'
  reverse := flags.reverse || letters.contains 'r'

/-- The loop over the arguments. -/
def parseArgs : List Word → (afterDdash : Bool) → Flags → (operands : List Word) →
    Except FileError (Flags × List Word)
  | [], _, flags, operands => .ok (flags, operands)
  | arg :: args, afterDdash, flags, operands =>
    if afterDdash then parseArgs args true flags (operands ++ [arg])
    else if arg = ['-', '-'] then parseArgs args true flags operands
    else match arg with
    | '-' :: letter :: letters =>
      if (letter :: letters).all lsOptions.contains then
        parseArgs args false (flags.add (letter :: letters)) operands
      else .error (.invalidOption (if letter = '-' then arg else [letter]))
    | _ => parseArgs args false flags (operands ++ [arg])

/-! ## Entries -/

/-- `list.sort` with `key` and `reverse`: equal keys stay in their order
both ways. -/
def sortBy {α κ : Type*} [LinearOrder κ] (key : α → κ) (descending : Bool) (l : List α) : List α :=
  l.mergeSort fun a b => if descending then key b ≤ key a else key a ≤ key b

def hidden (name : Word) : Bool := name.head? = some '.'

/-- The entry is listed. -/
def Flags.shows (flags : Flags) (p : FilePath) : Bool := flags.showAll || !hidden (baseName p)

/-- `-t` lists newest first by default, and `-r` flips either ordering. -/
def Flags.descending (flags : Flags) : Bool :=
  if flags.byTime then !flags.reverse else flags.reverse

variable [LinearOrder τ] (d : Disk β τ) (flags : Flags)

/-- `_ls_entries`. -/
def lsEntries (p : FilePath) : Except FileError (List FilePath) := do
  let entries := (← d.iterdir p).filter flags.shows
  if flags.byTime then
    let keyed ← entries.mapM fun e => return ((← d.statOf e).mtime, e)
    return (sortBy Prod.fst flags.descending keyed).map Prod.snd
  else
    return sortBy baseName flags.descending entries

/-- `f"{p.stat().st_mode:06o} {p.stat().st_size:>8} {p.name}\n"`. -/
def longLine (stat : Stat τ) (name : Word) : Word :=
  (Nat.toDigits 8 stat.mode).leftpad 6 '0' ++ [' ']
    ++ (Nat.toDigits 10 stat.size).leftpad 8 ' ' ++ [' '] ++ name ++ ['\n']

/-- `_ls_format`. -/
def lsFormat (entries : List FilePath) : Except FileError Word :=
  if flags.long then do
    let lines ← entries.mapM fun e => return longLine (← d.statOf e) (baseName e)
    return lines.flatten
  else
    .ok ([' ', ' '].intercalate (entries.map baseName) ++ if entries = [] then [] else ['\n'])

/-- A directory that is listed, not a link to one. -/
def entersDir (p : FilePath) : Bool := d.isDir p && !d.isSymlink p

/-- `_ls_flat`. -/
def lsFlat (targets : List FilePath) : Except FileError Word := do
  let sections ← targets.mapM fun target => do
    let body ←
      if entersDir d target then lsFormat d flags (← lsEntries d flags target)
      else return baseName target ++ ['\n']
    return if 1 < targets.length then pathText target ++ [':', '\n'] ++ body else body
  return if 1 < targets.length then ['\n'].intercalate sections else sections.flatten

/-! ## The recursive listing -/

/-- A header, if there is one, and a body. -/
abbrev Part := Option FilePath × Word

/-- What a directory adds to the listing, and its entries. -/
def visit (current : FilePath) : Except FileError (Part × List FilePath) := do
  let entries ← lsEntries d flags current
  return ((some current, ← lsFormat d flags entries), entries)

/-- `for entry in reversed(entries)`. The stack is given from its top. -/
def push (entries stack : List FilePath) : List FilePath :=
  entries.reverse.foldl (fun stack e => if entersDir d e then e :: stack else stack) stack

/-- `while stack`. -/
def walk : ℕ → (stack : List FilePath) → (sections : List Part) →
    Option (Except FileError (List Part))
  | 0, _, _ => none
  | _ + 1, [], sections => some (.ok sections)
  | fuel + 1, current :: stack, sections =>
    match visit d flags current with
    | .error e => some (.error e)
    | .ok (part, entries) => walk fuel (push d entries stack) (sections ++ [part])

/-- `for target in targets`. -/
def walkTargets (fuel : ℕ) : (targets : List FilePath) → (sections : List Part) →
    Option (Except FileError (List Part))
  | [], sections => some (.ok sections)
  | target :: targets, sections =>
    if entersDir d target then
      match walk d flags fuel [target] sections with
      | some (.ok sections) => walkTargets fuel targets sections
      | stopped => stopped
    else walkTargets fuel targets (sections ++ [(none, baseName target ++ ['\n'])])

def render (sections : List Part) : Word :=
  ['\n'].intercalate (sections.map fun part =>
    match part.1 with
    | some header => pathText header ++ [':', '\n'] ++ part.2
    | none => part.2)

/-- `_ls_recursive`. -/
def lsRecursive (fuel : ℕ) (targets : List FilePath) : Option (Except FileError Word) :=
  (walkTargets d flags fuel targets []).map fun out => out.map render

/-- `_cmd_ls`. -/
def cmdLs (context : Context) (fuel : ℕ) (args : List Word) : Option (Except FileError Word) :=
  match parseArgs args false ⟨false, false, false, false, false⟩ [] with
  | .error e => some (.error e)
  | .ok (flags, operands) =>
    match (if operands = [] then [['.']] else operands).mapM (context.path d.tree) with
    | .error e => some (.error e)
    | .ok targets =>
      if targets.any fun target => (d.lookup target).isNone then some (.error .fileNotFound)
      else if flags.recursive then lsRecursive d flags fuel targets
      else some (lsFlat d flags targets)

end Ls

end Zmux
