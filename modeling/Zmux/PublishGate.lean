import Zmux.InspectElf
import Zmux.ZpipState

/-!
# The publish gate

A wheel that was built passes three layers before it is published: the
checks of `inspect_wheel.py --security`, whose exit code `inspect_artifact`
of `build.py` reads next to that of `inspect_elf.py`, and `run_build`,
which generates the manifest and copies the wheel when the inspection is
fine.

The checks see what is wrong with an archive (`complaints_of_defective`),
but what they see is only printed and put into the `security` field:
`inspect_wheel` answers `valid` for every archive that can be opened. So
no defective archive is held back (`publish_gate_iff`).
-/

namespace Zmux

/-! ## inspect_wheel -/

/-- A wheel file; `members` are the names in the archive, and `none` is
`BadZipFile`. -/
structure BuiltWheel where
  filename : String
  members : Option (List String)
  sha256 : String
  size : Nat

structure FilenameInfo where
  distribution : String
  version : String
  pythonTag : String
  abiTag : String
  platformTag : String
deriving DecidableEq

/-- `[A-Za-z0-9]+([_.][A-Za-z0-9]+)*`. -/
def isTag (part : List Char) : Bool :=
  (part.splitOnP fun c => c = '_' || c = '.').all fun token =>
    !token.isEmpty && token.all isAlnum

/-- `validate_wheel_filename`. Its pattern is greedy, so the last four parts
are the version and the tags, and no build tag is captured. The final `$`
also matches ahead of a line break. -/
def validateWheelFilename (filename : String) : Except String FilenameInfo :=
  let text := filename.toList
  let line := if text.getLast? = some '\n' then text.dropLast else text
  if ".whl".toList.isSuffixOf line then
    match ((line.take (line.length - 4)).splitOn '-').reverse with
    | platform :: abi :: python :: version :: d :: ds =>
      if (platform :: abi :: python :: version :: d :: ds).all isTag then .ok
        { distribution := String.ofList (['-'].intercalate (d :: ds).reverse)
          version := String.ofList version
          pythonTag := String.ofList python
          abiTag := String.ofList abi
          platformTag := String.ofList platform }
      else .error ("Filename does not follow PEP 427: " ++ filename)
    | _ => .error ("Filename does not follow PEP 427: " ++ filename)
  else .error ("Filename does not follow PEP 427: " ++ filename)

/-- `check_path_traversal`. -/
def checkPathTraversal (names : List String) : List String :=
  names.filter fun name => isAbsolute name || isIn ".." name

/-- The loop of `check_duplicate_files`. -/
def duplicatesLoop : List String → (seen : List String) → List String
  | [], _ => []
  | name :: names, seen =>
    if name ∈ seen then name :: duplicatesLoop names (name :: seen)
    else duplicatesLoop names (name :: seen)

def checkDuplicateFiles (names : List String) : List String := duplicatesLoop names []

structure Security where
  pathTraversal : List String
  duplicateFiles : List String
  unexpectedExecutables : List String

/-- `str.endswith`. -/
def hasSuffix (suffix name : String) : Bool := suffix.toList.isSuffixOf name.toList

/-- `check_security`. -/
def checkSecurity (names : List String) : Security where
  pathTraversal := checkPathTraversal names
  duplicateFiles := checkDuplicateFiles names
  unexpectedExecutables := names.filter fun name => hasSuffix ".exe" name || hasSuffix ".dll" name

/-- The `❌` lines that are printed. -/
inductive Complaint where
  | notFound
  | filenameInvalid
  | noWheel
  | noMetadata
  | badZip
  | pathTraversal (names : List String)
  | duplicateFiles (names : List String)
  | unexpectedExecutables (names : List String)

def Security.complaints (security : Security) : List Complaint :=
  (if security.pathTraversal = [] then [] else [.pathTraversal security.pathTraversal])
    ++ (if security.duplicateFiles = [] then [] else [.duplicateFiles security.duplicateFiles])
    ++ if security.unexpectedExecutables = [] then []
      else [.unexpectedExecutables security.unexpectedExecutables]

/-- What is printed of the listing of the archive. -/
def metadataComplaints (names : List String) : List Complaint :=
  (if names.any (hasSuffix "/WHEEL") then [] else [.noWheel])
    ++ if names.any (hasSuffix "/METADATA") then [] else [.noMetadata]

/-- The result dictionary of `inspect_wheel`. -/
inductive WheelReport where
  | failed (error : String)
  | inspected (filenameInfo : Except String FilenameInfo) (sha256 : String) (size : Nat)
      (security : Option Security)

/-- Its `valid` field. -/
def WheelReport.valid : WheelReport → Bool
  | .failed _ => false
  | .inspected .. => true

/-- `inspect_wheel`; `none` is a path where no file is. -/
def inspectWheel (file : Option BuiltWheel) (security : Bool) : List Complaint × WheelReport :=
  match file with
  | none => ([.notFound], .failed "file not found")
  | some wheel =>
    let filenameInfo := validateWheelFilename wheel.filename
    let printed := match filenameInfo with
      | .ok _ => []
      | .error _ => [Complaint.filenameInvalid]
    match wheel.members with
    | none => (printed ++ [.badZip], .failed "bad zip")
    | some names =>
      let printed := printed ++ metadataComplaints names
      if security then
        (printed ++ (checkSecurity names).complaints,
          .inspected filenameInfo wheel.sha256 wheel.size (some (checkSecurity names)))
      else (printed, .inspected filenameInfo wheel.sha256 wheel.size none)

/-- The exit code of `inspect_wheel.py --security`. -/
def inspectWheelExit (file : Option BuiltWheel) : Nat :=
  if (inspectWheel file true).2.valid then 0 else 1

/-! ## build.py -/

/-- What the inspection scripts meet outside: the temporary directory and
`readelf`. -/
structure Inspector where
  tmpDir : String
  readelf : Binutils

/-- `inspect_artifact`. -/
def inspectArtifact (inspector : Inspector) (wheel : BuiltWheel) (abi : Abi) : Bool :=
  decide (inspectWheelExit (some wheel) = 0)
    && decide (inspectElf wheel.members inspector.tmpDir abi inspector.readelf = 0)

structure Recipe where
  package : Option String
  version : Option String
  sourceUrl : Option String
  sourceSha256 : Option String
  upstreamLicense : Option String
  smokeTest : Option String
  targetAbis : List String

/-- `if recipe.get(key)`. -/
def given (field : Option String) : Bool := field.any (· ≠ "")

def Abi.name : Abi → String
  | .armeabiV7a => "armeabi-v7a"
  | .arm64V8a => "arm64-v8a"

/-- `validate_recipe`. -/
def validateRecipe (recipe : Recipe) (abi : Abi) : Bool :=
  given recipe.package && given recipe.version
    && (given recipe.sourceSha256 || decide (recipe.sourceUrl = some "local"))
    && given recipe.upstreamLicense && given recipe.smokeTest
    && (recipe.targetAbis.isEmpty || decide (abi.name ∈ recipe.targetAbis))

structure BuildLock where
  python : List (String × String)
  toolchain : List (String × String)
  runtimeId : Option String
  status : Option String

def BuildLock.hasPlaceholder (lock : BuildLock) : Bool :=
  lock.python.any (fun entry => entry.2 = "PENDING")
    || lock.toolchain.any (fun entry => entry.2 = "PENDING" && entry.1 ≠ "buildozer_version")
    || decide (lock.runtimeId = some "PENDING_RUNTIME_PROBE")

/-- `validate_runtime_lock`. -/
def validateRuntimeLock (lock : BuildLock) : Bool :=
  if lock.hasPlaceholder ∧ lock.status ≠ some "M0_PLACEHOLDER" then false
  else if lock.status = some "M0_PLACEHOLDER" then false
  else true

/-- Step 5 of `run_build`; `sourceHash` is that of the local sources. -/
def sourceVerified (recipe : Recipe) (sourceHash : String) : Bool :=
  if recipe.sourceUrl = some "local" then decide (recipe.sourceSha256 = some sourceHash)
  else given recipe.sourceUrl && given recipe.sourceSha256

/-- The arguments of `run_build`, the files it loads and how the steps
ahead of the inspection end. `prepared` says that the steps up to the
prepared source do not exit. -/
structure Build where
  package : String
  version : String
  abi : Abi
  channel : String
  dryRun : Bool
  recipe : Recipe
  lock : BuildLock
  sourceHash : String
  prepared : Bool
  wheel : Option BuiltWheel

/-- What `run_build` leaves behind: `generate_manifest.py` is run, and the
wheel is copied to `dist`. -/
inductive Publication where
  | manifest (package version runtimeId : String) (abi : Abi) (channel filename : String)
  | copied (filename : String)
deriving DecidableEq

/-- `run_build`; the result `none` is an exit ahead of the inspection. -/
def runBuild (inspector : Inspector) (build : Build) : Option Bool × List Publication :=
  if build.recipe.package ≠ some build.package then (some false, [])
  else if build.recipe.version.getD "None" ≠ build.version then (some false, [])
  else if !validateRecipe build.recipe build.abi then (some false, [])
  else if !validateRuntimeLock build.lock then (some false, [])
  else if !sourceVerified build.recipe build.sourceHash then (some false, [])
  else if build.dryRun then (some true, [])
  else if !build.prepared then (none, [])
  else match build.wheel with
    | none => (some false, [])
    | some wheel =>
      if !inspectArtifact inspector wheel build.abi then (some false, [])
      else (some true,
        [.manifest build.package build.version (build.lock.runtimeId.getD "unknown") build.abi
            build.channel wheel.filename,
          .copied wheel.filename])

/-! ## What is wrong with an archive -/

/-- A member leaves the directory it is unpacked to, two members have one
name, one is a Windows executable, or the metadata is incomplete. -/
def Defective (names : List String) : Prop :=
  (∃ name ∈ names, safePath name = false) ∨ ¬names.Nodup
    ∨ (∃ name ∈ names, hasSuffix ".exe" name = true ∨ hasSuffix ".dll" name = true)
    ∨ names.any (hasSuffix "/WHEEL") = false ∨ names.any (hasSuffix "/METADATA") = false

theorem infix_intercalate {w sep : List Char} : ∀ {parts : List (List Char)}, w ∈ parts →
    w <:+: sep.intercalate parts
  | [], h => (List.not_mem_nil h).elim
  | [part], h => by
      rw [List.mem_singleton.mp h, List.intercalate_singleton]
  | part :: next :: rest, h => by
      rw [List.intercalate_cons_cons]
      rcases List.mem_cons.mp h with rfl | h
      · rw [List.append_assoc]
        exact (List.prefix_append _ _).isInfix
      · exact (infix_intercalate h).trans (List.suffix_append _ _).isInfix

/-- A `..` component is seen by `".." in name`. -/
theorem mem_checkPathTraversal {names : List String} {name : String} (hmem : name ∈ names)
    (hescapes : safePath name = false) : name ∈ checkPathTraversal names := by
  refine List.mem_filter.mpr ⟨hmem, ?_⟩
  rw [Bool.or_eq_true, or_iff_not_imp_left, Bool.not_eq_true]
  intro hrelative
  have hdots : ".." ∈ pathParts name := by
    simpa [safePath, hrelative] using hescapes
  obtain ⟨part, hpart, hname⟩ := List.mem_map.mp (List.mem_filter.mp hdots).1
  have hinfix : part <:+: ['/'].intercalate (name.toList.splitOn '/') := infix_intercalate hpart
  rw [List.intercalate_splitOn] at hinfix
  rw [isIn, decide_eq_true_eq, ← hname, String.toList_ofList]
  exact hinfix

theorem duplicatesLoop_eq_nil : ∀ {names seen : List String},
    duplicatesLoop names seen = [] ↔ names.Nodup ∧ ∀ name ∈ names, name ∉ seen
  | [], _ => by simp [duplicatesLoop]
  | name :: names, seen => by
      rw [duplicatesLoop]
      split
      · rename_i hseen
        simp [hseen]
      · rename_i hnew
        rw [duplicatesLoop_eq_nil]
        simp only [List.nodup_cons, List.mem_cons, forall_eq_or_imp, hnew, not_false_eq_true,
          true_and, not_or, forall_and]
        constructor
        · rintro ⟨hnodup, hne, hseen⟩
          exact ⟨⟨fun hmem => hne name hmem rfl, hnodup⟩, hseen⟩
        · rintro ⟨⟨hmem, hnodup⟩, hseen⟩
          exact ⟨hnodup, fun other hother heq => hmem (heq ▸ hother), hseen⟩

theorem checkDuplicateFiles_eq_nil {names : List String} :
    checkDuplicateFiles names = [] ↔ names.Nodup := by
  rw [checkDuplicateFiles, duplicatesLoop_eq_nil]
  simp

/-- What is printed about the content of the archive. -/
def archiveComplaints (names : List String) : List Complaint :=
  metadataComplaints names ++ (checkSecurity names).complaints

/-- The checks see every defect. -/
theorem complaints_of_defective {names : List String} (h : Defective names) :
    ∃ complaint, complaint ∈ archiveComplaints names := by
  refine List.exists_mem_of_ne_nil _ fun hnone => ?_
  simp only [archiveComplaints, metadataComplaints, Security.complaints, List.append_eq_nil_iff,
    ite_eq_left_iff, List.cons_ne_nil, imp_false, not_not, Bool.not_eq_true, Bool.not_eq_false]
    at hnone
  obtain ⟨⟨hwheel, hmetadata⟩, ⟨htraversal, hduplicates⟩, hexecutables⟩ := hnone
  rcases h with ⟨name, hname, hescapes⟩ | hnodup | ⟨name, hname, hexe⟩ | hmissing | hmissing
  · have hseen := mem_checkPathTraversal hname hescapes
    rw [show checkPathTraversal names = [] from htraversal] at hseen
    exact List.not_mem_nil hseen
  · exact hnodup (checkDuplicateFiles_eq_nil.mp hduplicates)
  · have hseen : name ∈ (checkSecurity names).unexpectedExecutables :=
      List.mem_filter.mpr ⟨hname, Bool.or_eq_true _ _ ▸ hexe⟩
    rw [hexecutables] at hseen
    exact List.not_mem_nil hseen
  · rw [hmissing] at hwheel
    cases hwheel
  · rw [hmissing] at hmetadata
    cases hmetadata

/-! ## What the layers make of it -/

section Layers

variable (filename sha256 : String) (size : Nat) (names : List String)

/-- The wheel with this archive. -/
def wheelOf : BuiltWheel := ⟨filename, some names, sha256, size⟩

theorem printed_archiveComplaints {complaint : Complaint}
    (h : complaint ∈ archiveComplaints names) :
    complaint ∈ (inspectWheel (some (wheelOf filename sha256 size names)) true).1 := by
  simp only [inspectWheel, wheelOf, if_true, List.append_assoc]
  exact List.mem_append_right _ h

/-- An archive that can be opened is valid, whatever the checks find. -/
theorem inspectWheelExit_eq : inspectWheelExit (some (wheelOf filename sha256 size names)) = 0 :=
  rfl

/-- So the ELF gate alone decides. -/
theorem inspectArtifact_eq (inspector : Inspector) (abi : Abi) :
    inspectArtifact inspector (wheelOf filename sha256 size names) abi
      = decide (inspectElf (some names) inspector.tmpDir abi inspector.readelf = 0) := by
  rw [inspectArtifact, inspectWheelExit_eq]
  rfl

end Layers

/-- The build comes to the inspection of `wheel`. -/
structure Built (build : Build) (wheel : BuiltWheel) : Prop where
  package : build.recipe.package = some build.package
  version : build.recipe.version.getD "None" = build.version
  recipe : validateRecipe build.recipe build.abi = true
  lock : validateRuntimeLock build.lock = true
  source : sourceVerified build.recipe build.sourceHash = true
  real : build.dryRun = false
  prepared : build.prepared = true
  wheel : build.wheel = some wheel

/-- The steps behind the inspection. -/
def publications (build : Build) (wheel : BuiltWheel) : List Publication :=
  [.manifest build.package build.version (build.lock.runtimeId.getD "unknown") build.abi
      build.channel wheel.filename,
    .copied wheel.filename]

theorem runBuild_built {inspector : Inspector} {build : Build} {wheel : BuiltWheel}
    (h : Built build wheel) :
    runBuild inspector build
      = if inspectArtifact inspector wheel build.abi then (some true, publications build wheel)
        else (some false, []) := by
  unfold runBuild
  rw [if_neg (not_not.mpr h.package), if_neg (not_not.mpr h.version), h.recipe, h.lock, h.source,
    h.real, h.prepared, h.wheel]
  simp only [Bool.not_true, Bool.false_eq_true, if_false]
  cases inspectArtifact inspector wheel build.abi <;> rfl

/-- All three layers turn the wheel down. -/
structure HeldBack (inspector : Inspector) (wheel : BuiltWheel) : Prop where
  exitCode : inspectWheelExit (some wheel) ≠ 0
  artifact : ∀ abi, inspectArtifact inspector wheel abi = false
  build : ∀ build, Built build wheel → runBuild inspector build = (some false, [])

/-- **The publish gate** holds a defective archive back never: precisely
for the archives that have no defect there is nothing to hold back. What
the checks print about a defect does not matter; the exit code is 0, and
the build publishes the wheel if the ELF gate lets it pass. -/
theorem publish_gate_iff (filename sha256 : String) (size : Nat) (names : List String)
    (inspector : Inspector) :
    ((Defective names → HeldBack inspector (wheelOf filename sha256 size names))
      ↔ ¬Defective names)
    ∧ (Defective names → ∃ complaint ∈ archiveComplaints names,
        complaint ∈ (inspectWheel (some (wheelOf filename sha256 size names)) true).1)
    ∧ ∀ build, Built build (wheelOf filename sha256 size names) →
        runBuild inspector build
          = if inspectElf (some names) inspector.tmpDir build.abi inspector.readelf = 0
            then (some true, publications build (wheelOf filename sha256 size names))
            else (some false, []) := by
  refine ⟨⟨fun hgate hdefect => ?_, fun hfine hdefect => (hfine hdefect).elim⟩,
    fun hdefect => ?_, fun build hbuilt => ?_⟩
  · exact (hgate hdefect).exitCode (inspectWheelExit_eq filename sha256 size names)
  · obtain ⟨complaint, hmem⟩ := complaints_of_defective hdefect
    exact ⟨complaint, hmem, printed_archiveComplaints filename sha256 size names hmem⟩
  · rw [runBuild_built hbuilt, inspectArtifact_eq]
    split
    · rename_i hpass
      rw [if_pos (of_decide_eq_true hpass)]
    · rename_i hfail
      rw [if_neg fun hpass => hfail (decide_eq_true hpass)]

/-! ## A wheel with everything wrong -/

/-- A traversal, a duplicate and an executable, and no metadata. -/
def badNames : List String := ["../evil.py", "a.py", "a.py", "run.exe"]

def badBuild : Build where
  package := "demo"
  version := "1.0.0"
  abi := .arm64V8a
  channel := "stable"
  dryRun := false
  recipe := ⟨some "demo", some "1.0.0", some "local", some "hash", some "MIT", some "import demo", []⟩
  lock := ⟨[], [], some "r", some "locked"⟩
  sourceHash := "hash"
  prepared := true
  wheel := some (wheelOf "demo-1.0.0-py3-none-any.whl" "" 0 badNames)

/-- It is published. -/
theorem bad_wheel_is_published :
    Defective badNames
      ∧ inspectWheelExit badBuild.wheel = 0
      ∧ (runBuild ⟨"t", intelBinutils⟩ badBuild).1 = some true
      ∧ Publication.copied "demo-1.0.0-py3-none-any.whl"
        ∈ (runBuild ⟨"t", intelBinutils⟩ badBuild).2 := by
  refine ⟨Or.inl ⟨"../evil.py", by decide, by decide⟩, rfl, ?_, ?_⟩
  · decide
  · decide

end Zmux
