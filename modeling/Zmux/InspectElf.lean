import Mathlib.Data.List.AList
import Mathlib.Data.List.Infix
import Zmux.Text

/-!
# The ELF gate

`inspect_elf.py`: the shared objects of a wheel are extracted, `readelf -h`
and `readelf -d` are run on each of them, and the exit code says whether an
error was found.

What `readelf` prints or how it fails is a parameter. Its output is read
line by line, and the machine is known by the name `readelf` gives it. The
checks look for the machines that are wrong: a file is rejected when its
name says x86, or ARM of the other width. A file that could not be read
gives a warning only, and any other machine passes. A library of glibc is
known by two substrings that only `libc.so.6` has. So the gate is as good
as it claims precisely when every file was read, has the machine of the
target and needs no foreign library that the checks do not know, or some
file is rejected (`elf_gate_iff`).
-/

namespace Zmux

/-! ## Strings -/

/-- `sub in s`. -/
def isIn (sub s : String) : Bool := decide (sub.toList <:+: s.toList)

/-- `str.upper` and `str.lower` on the letters the checks look for. -/
def upper (s : String) : String := String.ofList (s.toList.map Char.toUpper)

def lower (s : String) : String := String.ofList (s.toList.map Char.toLower)

/-- `s.split(sep)[-1]`. -/
def lastPart (sep : Char) (s : String) : List Char := (s.toList.splitOn sep).getLastD []

/-- `os.path.basename`. -/
def basename (path : String) : String := String.ofList (lastPart '/' path)

/-- `os.path.join`. -/
def joinPath (dir name : String) : String :=
  if name.toList.head? = some '/' then name else dir ++ "/" ++ name

/-! ## readelf -/

/-- How a run of `readelf` ends; the output is split into lines. -/
inductive Readelf where
  | finished (returncode : Int) (stdout : List String) (stderr : String)
  | notFound
  | timedOut

/-- `readelf -h` and `readelf -d` on a path. -/
structure Binutils where
  header : String → Readelf
  dynamic : String → Readelf

structure Header where
  machine : Option String
  cls : Option String
  type : Option String
deriving DecidableEq

/-- The text behind the last colon. -/
def headerField (line : String) : String := String.ofList (strip (lastPart ':' line))

def Header.line (header : Header) (line : String) : Header where
  machine := if isIn "Machine:" line then some (headerField line) else header.machine
  cls := if isIn "Class:" line then some (headerField line) else header.cls
  type := if isIn "Type:" line then some (headerField line) else header.type

/-- `readelf_header`. -/
def readelfHeader : Readelf → Except String Header
  | .finished returncode stdout stderr =>
    if returncode ≠ 0 then .error stderr
    else .ok (stdout.foldl Header.line ⟨none, none, none⟩)
  | .notFound => .error "readelf not available (install binutils)"
  | .timedOut => .error "readelf timed out"

structure Dynamic where
  needed : List String
  hasTextRelocation : Bool
deriving DecidableEq

/-- `line.split("[")[-1].rstrip("]").strip()`. -/
def neededName (line : String) : String :=
  String.ofList (strip ((lastPart '[' line).reverse.dropWhile (· = ']')).reverse)

def Dynamic.line (dynamic : Dynamic) (line : String) : Dynamic where
  needed := if isIn "NEEDED" line then dynamic.needed ++ [neededName line] else dynamic.needed
  hasTextRelocation := isIn "TEXTREL" line || dynamic.hasTextRelocation

/-- `readelf_dynamic`. -/
def readelfDynamic : Readelf → Except String Dynamic
  | .finished returncode stdout stderr =>
    if returncode ≠ 0 then .error stderr
    else .ok (stdout.foldl Dynamic.line ⟨[], false⟩)
  | .notFound => .error "readelf not available"
  | .timedOut => .error "readelf timed out"

/-! ## The checks -/

inductive Abi where
  | armeabiV7a
  | arm64V8a
deriving DecidableEq

/-- `ABI_MACHINE_MAP`. -/
def Abi.machine : Abi → Nat
  | .armeabiV7a => 40
  | .arm64V8a => 183

/-- `PRIVATE_ANDROID_LIBS`. -/
def privateAndroidLibs : List String :=
  ["libart.so", "libdalvik.so", "libandroid_runtime.so", "libnativehelper.so"]

def isArm (machine : String) : Bool := isIn "ARM" (upper machine)

def isAarch64 (machine : String) : Bool := isIn "AArch64" machine || isIn "ARM64" (upper machine)

def isX86 (machine : String) : Bool := isIn "x86" (lower machine) && !isAarch64 machine

def isGlibc (lib : String) : Bool := isIn "glibc" (lower lib) || isIn "libc.so.6" lib

/-- An entry of `results["errors"]`. -/
inductive ElfError where
  | x86 (name : String)
  | arm64InArmv7 (name : String)
  | armv7InArm64 (name : String)
  | glibc (name : String) (deps : List String)
  | privateApi (name : String) (deps : List String)
  | textRelocation (name : String)

/-- Check architecture. -/
def machineErrors (abi : Abi) (name machine : String) : List ElfError :=
  (if isX86 machine then [.x86 name] else [])
    ++ (if abi = .armeabiV7a ∧ isAarch64 machine = true then [.arm64InArmv7 name] else [])
    ++ (if abi = .arm64V8a ∧ isArm machine = true ∧ isAarch64 machine = false
        then [.armv7InArm64 name] else [])

/-- Check for glibc link, private Android API and text relocation. -/
def dynamicErrors (name : String) (dynamic : Dynamic) : List ElfError :=
  (if dynamic.needed.filter isGlibc ≠ [] then [.glibc name (dynamic.needed.filter isGlibc)]
    else [])
    ++ (if dynamic.needed.filter (· ∈ privateAndroidLibs) ≠ []
        then [.privateApi name (dynamic.needed.filter (· ∈ privateAndroidLibs))] else [])
    ++ if dynamic.hasTextRelocation then [.textRelocation name] else []

/-- What one turn of the loop adds to the results. -/
structure SoReport where
  errors : List ElfError
  warnings : List (String × String)
  file : Option (Header × Dynamic)

def inspectSo (abi : Abi) (readelf : Binutils) (soPath : String) : SoReport :=
  let name := basename soPath
  match readelfHeader (readelf.header soPath) with
  | .error e => ⟨[], [(name, e)], none⟩
  | .ok header =>
    let errors := machineErrors abi name (header.machine.getD "unknown")
    match readelfDynamic (readelf.dynamic soPath) with
    | .error e => ⟨errors, [(name, e)], none⟩
    | .ok dynamic => ⟨errors ++ dynamicErrors name dynamic, [], some (header, dynamic)⟩

structure ElfResults where
  targetAbi : Abi
  expectedMachine : Nat
  files : AList fun _ : String => Header × Dynamic
  errors : List ElfError
  warnings : List (String × String)

def ElfResults.add (results : ElfResults) (name : String) (report : SoReport) : ElfResults :=
  { results with
    files := match report.file with
      | some file => results.files.insert name file
      | none => results.files
    errors := results.errors ++ report.errors
    warnings := results.warnings ++ report.warnings }

def inspectElfFiles (soFiles : List String) (abi : Abi) (readelf : Binutils) : ElfResults :=
  soFiles.foldl (fun results soPath => results.add (basename soPath) (inspectSo abi readelf soPath))
    ⟨abi, abi.machine, ∅, [], []⟩

/-- The members `extract_so_files` extracts, and where it expects them. -/
def extractSoFiles (names : List String) (tmpDir : String) : List String :=
  (names.filter fun name => ".so".toList.isSuffixOf name.toList || isIn ".so." name).map
    (joinPath tmpDir)

/-- The exit code of `inspect_elf.py`. `members` are the names in the
archive; `none` stands for an exception of `zipfile`. -/
def inspectElf (members : Option (List String)) (tmpDir : String) (abi : Abi)
    (readelf : Binutils) : Nat :=
  match members with
  | none => 1
  | some names =>
    let soFiles := extractSoFiles names tmpDir
    if soFiles = [] then 0
    else if (inspectElfFiles soFiles abi readelf).errors.isEmpty then 0 else 1

/-! ## What is rejected -/

def WrongMachine (abi : Abi) (machine : String) : Prop :=
  isX86 machine = true
    ∨ abi = .armeabiV7a ∧ isAarch64 machine = true
    ∨ abi = .arm64V8a ∧ isArm machine = true ∧ isAarch64 machine = false

/-- The checks know the library. -/
def Known (lib : String) : Prop := isGlibc lib = true ∨ lib ∈ privateAndroidLibs

def BadLinks (dynamic : Dynamic) : Prop :=
  (∃ lib ∈ dynamic.needed, Known lib) ∨ dynamic.hasTextRelocation = true

/-- A check finds an error in what `readelf` says of the file. -/
def Rejected (abi : Abi) (readelf : Binutils) (soPath : String) : Prop :=
  ∃ header, readelfHeader (readelf.header soPath) = .ok header
    ∧ (WrongMachine abi (header.machine.getD "unknown")
      ∨ ∃ dynamic, readelfDynamic (readelf.dynamic soPath) = .ok dynamic ∧ BadLinks dynamic)

theorem machineErrors_eq_nil {abi : Abi} {name machine : String} :
    machineErrors abi name machine = [] ↔ ¬WrongMachine abi machine := by
  simp only [machineErrors, WrongMachine, List.append_eq_nil_iff, ite_eq_right_iff,
    List.cons_ne_nil, imp_false, not_or, and_assoc]

theorem dynamicErrors_eq_nil {name : String} {dynamic : Dynamic} :
    dynamicErrors name dynamic = [] ↔ ¬BadLinks dynamic := by
  simp only [dynamicErrors, BadLinks, Known, List.append_eq_nil_iff, ite_eq_right_iff,
    List.cons_ne_nil, imp_false, not_not, List.filter_eq_nil_iff, decide_eq_true_eq, ne_eq]
  constructor
  · rintro ⟨⟨hglibc, hprivate⟩, htext⟩ (⟨lib, hlib, h | h⟩ | h)
    · exact hglibc lib hlib h
    · exact hprivate lib hlib h
    · exact htext h
  · intro hclean
    refine ⟨⟨fun lib hlib h => hclean ?_, fun lib hlib h => hclean ?_⟩, fun h => hclean ?_⟩
    · exact Or.inl ⟨lib, hlib, Or.inl h⟩
    · exact Or.inl ⟨lib, hlib, Or.inr h⟩
    · exact Or.inr h

theorem inspectSo_errors_eq_nil {abi : Abi} {readelf : Binutils} {soPath : String} :
    (inspectSo abi readelf soPath).errors = [] ↔ ¬Rejected abi readelf soPath := by
  unfold inspectSo Rejected
  cases readelfHeader (readelf.header soPath) with
  | error e => simp
  | ok header =>
      cases readelfDynamic (readelf.dynamic soPath) with
      | error e =>
          dsimp only
          rw [machineErrors_eq_nil]
          simp
      | ok dynamic =>
          dsimp only
          rw [List.append_eq_nil_iff, machineErrors_eq_nil, dynamicErrors_eq_nil]
          simp

/-- The loop collects the errors of all turns. -/
theorem errors_inspectElfFiles (soFiles : List String) (abi : Abi) (readelf : Binutils) :
    (inspectElfFiles soFiles abi readelf).errors
      = soFiles.flatMap fun soPath => (inspectSo abi readelf soPath).errors := by
  have hloop : ∀ (soFiles : List String) (results : ElfResults),
      (soFiles.foldl (fun results soPath =>
        results.add (basename soPath) (inspectSo abi readelf soPath)) results).errors
      = results.errors ++ soFiles.flatMap fun soPath => (inspectSo abi readelf soPath).errors := by
    intro soFiles
    induction soFiles with
    | nil => simp
    | cons soPath soFiles ih =>
        intro results
        rw [List.foldl_cons, ih, List.flatMap_cons, ElfResults.add, List.append_assoc]
  exact hloop soFiles _

/-- The script succeeds when the archive can be read and no file is
rejected. -/
theorem inspectElf_eq_zero_iff {members : Option (List String)} {tmpDir : String} {abi : Abi}
    {readelf : Binutils} :
    inspectElf members tmpDir abi readelf = 0
      ↔ ∃ names, members = some names
        ∧ ∀ soPath ∈ extractSoFiles names tmpDir, ¬Rejected abi readelf soPath := by
  unfold inspectElf
  cases members with
  | none => simp
  | some names =>
      have hno : (inspectElfFiles (extractSoFiles names tmpDir) abi readelf).errors = []
          ↔ ∀ soPath ∈ extractSoFiles names tmpDir, ¬Rejected abi readelf soPath := by
        rw [errors_inspectElfFiles, List.flatMap_eq_nil_iff]
        exact forall₂_congr fun _ _ => inspectSo_errors_eq_nil
      simp only [Option.some.injEq, exists_eq_left', ← hno, List.isEmpty_iff]
      split
      · rename_i hempty
        rw [errors_inspectElfFiles, hempty]
        simp
      · simp

/-! ## The gate -/

/-- The name of the target machine in the output of `readelf`. -/
def Abi.machineName : Abi → String
  | .armeabiV7a => "ARM"
  | .arm64V8a => "AArch64"

/-- Which libraries are glibc's, and which are private to Android. -/
structure Libraries where
  glibc : String → Prop
  privateAndroid : String → Prop

/-- The sonames of glibc on the two targets, its loaders among them. -/
def glibcSonames : List String :=
  ["libc.so.6", "libm.so.6", "libpthread.so.0", "libdl.so.2", "librt.so.1", "libutil.so.1",
    "libresolv.so.2", "libnsl.so.1", "libanl.so.1", "libthread_db.so.1", "libBrokenLocale.so.1",
    "ld-linux.so.3", "ld-linux-armhf.so.3", "ld-linux-aarch64.so.1"]

def deviceLibraries : Libraries where
  glibc lib := basename lib ∈ glibcSonames
  privateAndroid lib := basename lib ∈ privateAndroidLibs

def Libraries.Foreign (libraries : Libraries) (lib : String) : Prop :=
  libraries.glibc lib ∨ libraries.privateAndroid lib

/-- Both calls of `readelf` read the file, its machine is the target, and the
checks know the foreign libraries that it needs. -/
def ReadAs (libraries : Libraries) (abi : Abi) (readelf : Binutils) (soPath : String) : Prop :=
  ∃ header dynamic, readelfHeader (readelf.header soPath) = .ok header
    ∧ readelfDynamic (readelf.dynamic soPath) = .ok dynamic
    ∧ header.machine = some abi.machineName
    ∧ ∀ lib ∈ dynamic.needed, libraries.Foreign lib → Known lib

/-- What the gate promises of a shared object. -/
def Clean (libraries : Libraries) (abi : Abi) (readelf : Binutils) (soPath : String) : Prop :=
  ∃ header dynamic, readelfHeader (readelf.header soPath) = .ok header
    ∧ readelfDynamic (readelf.dynamic soPath) = .ok dynamic
    ∧ header.machine = some abi.machineName
    ∧ (∀ lib ∈ dynamic.needed, ¬libraries.glibc lib ∧ ¬libraries.privateAndroid lib)
    ∧ dynamic.hasTextRelocation = false

/-- The shared objects of the wheel. -/
def soPaths (members : Option (List String)) (tmpDir : String) : List String :=
  (members.map fun names => extractSoFiles names tmpDir).getD []

/-- **The ELF gate.** Exit code 0 promises that every shared object was
read, has the machine of the target and links to nothing bad: precisely
when some file is rejected, or every file was read as the target and needs
no foreign library that slips through. -/
theorem elf_gate_iff (libraries : Libraries) (members : Option (List String)) (tmpDir : String)
    (abi : Abi) (readelf : Binutils) :
    (inspectElf members tmpDir abi readelf = 0 →
        ∀ soPath ∈ soPaths members tmpDir, Clean libraries abi readelf soPath)
      ↔ (∃ soPath ∈ soPaths members tmpDir, Rejected abi readelf soPath)
        ∨ ∀ soPath ∈ soPaths members tmpDir, ReadAs libraries abi readelf soPath := by
  rw [inspectElf_eq_zero_iff]
  cases members with
  | none => simp [soPaths]
  | some names =>
      simp only [Option.some.injEq, exists_eq_left', soPaths, Option.map_some, Option.getD_some]
      constructor
      · intro hgate
        by_cases hrejected : ∃ soPath ∈ extractSoFiles names tmpDir, Rejected abi readelf soPath
        · exact Or.inl hrejected
        · refine Or.inr fun soPath hso => ?_
          obtain ⟨header, dynamic, hheader, hdynamic, hmachine, hlibs, -⟩ :=
            hgate (fun soPath hso h => hrejected ⟨soPath, hso, h⟩) soPath hso
          refine ⟨header, dynamic, hheader, hdynamic, hmachine, fun lib hlib hforeign => ?_⟩
          obtain ⟨hglibc, hprivate⟩ := hlibs lib hlib
          exact (hforeign.elim hglibc hprivate).elim
      · rintro (⟨soPath, hso, hrejected⟩ | hread) haccepted soPath' hso'
        · exact (haccepted soPath hso hrejected).elim
        · obtain ⟨header, dynamic, hheader, hdynamic, hmachine, hknown⟩ := hread soPath' hso'
          have hlinks : ¬BadLinks dynamic := fun hbad =>
            haccepted soPath' hso' ⟨header, hheader, Or.inr ⟨dynamic, hdynamic, hbad⟩⟩
          -- a foreign library that the checks know is a bad link
          have hown (lib : String) (hlib : lib ∈ dynamic.needed) : ¬libraries.Foreign lib :=
            fun hforeign => hlinks (Or.inl ⟨lib, hlib, hknown lib hlib hforeign⟩)
          refine ⟨header, dynamic, hheader, hdynamic, hmachine, fun lib hneeded => ?_, ?_⟩
          · exact not_or.mp (hown lib hneeded)
          · rw [← Bool.not_eq_true]
            exact fun htext => hlinks (Or.inr htext)

/-! ## Objects that pass -/

/-- `readelf` calls 32-bit x86 `Intel 80386`. -/
def intelBinutils : Binutils where
  header _ := .finished 0 ["ELF Header:", "  Machine:                           Intel 80386"] ""
  dynamic _ := .finished 0 [] ""

/-- An object for the target that needs glibc's `libm`. -/
def glibcBinutils : Binutils where
  header _ := .finished 0 ["ELF Header:", "  Machine:                           ARM"] ""
  dynamic _ := .finished 0 [" 0x00000001 (NEEDED)   Shared library: [libm.so.6]"] ""

/-- Both pass the gate for `armeabi-v7a`. -/
theorem intel_passes_elf_gate :
    (inspectElf (some ["m.so"]) "t" .armeabiV7a intelBinutils = 0
        ∧ (readelfHeader (intelBinutils.header "t/m.so")).toOption.map Header.machine
          = some (some "Intel 80386")
        ∧ ∀ libraries, ¬∀ soPath ∈ soPaths (some ["m.so"]) "t",
          Clean libraries .armeabiV7a intelBinutils soPath)
      ∧ inspectElf (some ["m.so"]) "t" .armeabiV7a glibcBinutils = 0
        ∧ (readelfDynamic (glibcBinutils.dynamic "t/m.so")).toOption.map Dynamic.needed
          = some ["libm.so.6"]
        ∧ ¬∀ soPath ∈ soPaths (some ["m.so"]) "t",
          Clean deviceLibraries .armeabiV7a glibcBinutils soPath := by
  have hmachine : (readelfHeader (intelBinutils.header "t/m.so")).toOption.map Header.machine
      = some (some "Intel 80386") := by decide
  have hneeded : (readelfDynamic (glibcBinutils.dynamic "t/m.so")).toOption.map Dynamic.needed
      = some ["libm.so.6"] := by decide
  refine ⟨⟨by decide, hmachine, fun libraries hclean => ?_⟩, by decide, hneeded, fun hclean => ?_⟩
  · obtain ⟨header, -, hheader, -, htarget, -⟩ := hclean "t/m.so" (by decide)
    rw [hheader] at hmachine
    rw [Except.toOption, Option.map_some, htarget] at hmachine
    exact absurd hmachine (by decide)
  · obtain ⟨-, dynamic, -, hdynamic, -, hlibs, -⟩ := hclean "t/m.so" (by decide)
    rw [hdynamic, Except.toOption, Option.map_some, Option.some.injEq] at hneeded
    have hglibc : basename "libm.so.6" ∈ glibcSonames := by decide
    exact (hlibs "libm.so.6" (by rw [hneeded]; exact List.mem_singleton_self _)).1 hglibc

end Zmux
