import Mathlib.Data.List.Sort
import Mathlib.Logic.Function.Basic
import Zmux.IndexManifests
import Zmux.JsonDump
import Zmux.JsonPrefix
import Zmux.WheelDownload
import Zmux.WsControl

/-!
# From the wheel of a maintainer to the phone

`generate_manifest.py` describes a wheel and its digest in a JSON file,
`generate_index.py` puts the manifests of all channels into one JSON file
for each ABI, and on the phone `_manifest_from_curated` looks the package
up in the file of its runtime and `_download` fetches what it finds there.
Three programs and two formats stand between the wheel and the phone.

`wheel_arrives` says that what comes out is what went in: the manifest that
the client finds is one that was generated for this package, channel,
runtime and ABI, and a download that succeeds has the digest of the very
wheel. `manifest_found` says that the client finds a manifest that nothing
else overwrites.
-/

namespace Zmux

open Json (IsText Sendable get?)
open WheelDownload (Connection Sha enoughTurns fetch)
open WsControl (decode encode)

namespace PublishedWheel

abbrev Fields := List (Codes × Json)

/-- `json.dump(fields, handle, indent=2)`. -/
def dumped (fields : Fields) : List Char := Json.dumpValue .indented 0 (.object fields)

/-- `fields.get(key) == text`. -/
def has (fields : Fields) (key : String) (text : Codes) : Bool :=
  match get? fields (codes key) with
  | some (.string found) => decide (found = text)
  | _ => false

theorem has_iff {fields : Fields} {key : String} {text : Codes} :
    has fields key text = true ↔ get? fields (codes key) = some (.string text) := by
  rw [has]
  split
  · rename_i found hget
    simp [hget]
  · rename_i hget
    exact iff_of_false Bool.false_ne_true (hget text)

/-! ## The manifest -/

/-- `str`, of what a recipe may have. -/
structure Str where
  str : Json → Codes
  text : ∀ text, str (.string text) = text
  isText : ∀ v, Sendable v → IsText (str v)

/-- The file that `--wheel` names. -/
structure WheelFile where
  basename : Codes
  content : List UInt8
  isText : IsText basename

/-- A call of `generate_manifest.py` without `--output`: the arguments, and
the files that it reads; `none` is a file that is not there. Versions with
a slash, which would lead out of the channel's directory, are left out. -/
structure Call where
  package : Codes
  version : Codes
  runtimeId : Codes
  abi : String
  channel : Channel
  wheel : Option WheelFile
  artifactUrl : Codes
  buildPassed : Bool
  elfInspected : Bool
  recipe : Option Fields
  abi_mem : abi ∈ indexAbis
  direct : '/'.toNat ∉ version
  texts : ∀ text ∈ [package, version, runtimeId, artifactUrl], IsText text
  sendable : ∀ fields, recipe = some fields → Sendable (.object fields)

/-- `PACKAGE_NAME.fullmatch`. -/
def isPackageName (name : Codes) : Bool :=
  (name.splitOnP fun n => n ∈ codes "._-").all fun part =>
    part ≠ [] && part.all fun n =>
      ('a'.toNat ≤ n && n ≤ 'z'.toNat) || ('0'.toNat ≤ n && n ≤ '9'.toNat)

/-- `f.read(8192)` until nothing comes. -/
def pieces : (turnsLeft : ℕ) → List UInt8 → List (List UInt8)
  | 0, _ => []
  | _ + 1, [] => []
  | turnsLeft + 1, content => content.take 8192 :: pieces turnsLeft (content.drop 8192)

section Manifest

variable (py : Str) {σ : Type} (sha : Sha σ)

/-- `recipe.get(key, default)`. -/
def field (recipe : Fields) (key : String) (default : Json) : Json :=
  (get? recipe (codes key)).getD default

/-- The `artifact` object. -/
def artifact (call : Call) : Fields :=
  match call.wheel with
  | none =>
    [(codes "filename", .string []), (codes "url", .string call.artifactUrl),
      (codes "size", .int 0), (codes "sha256", .string [])]
  | some wheel =>
    let hash := (pieces wheel.content.length wheel.content).foldl sha.update sha.new
    [(codes "filename", .string wheel.basename), (codes "url", .string call.artifactUrl),
      (codes "size", .int wheel.content.length),
      (codes "sha256", .string (codes (sha.hexdigest hash)))]

/-- The dict that `generate_manifest` makes. -/
def manifestOf (call : Call) (recipe : Fields) : Fields :=
  let pythonVersion := field recipe "python_version" (.string (codes "3XX"))
  [(codes "schema_version", .int 1),
    (codes "name", .string call.package),
    (codes "version", .string call.version),
    (codes "runtime_id", .string call.runtimeId),
    (codes "python_tag",
      field recipe "python_tag" (.string (codes "cp" ++ py.str pythonVersion))),
    (codes "abi", .string (codes call.abi)),
    (codes "android_min_api", field recipe "min_android_api" (.int 26)),
    (codes "channel", .string (codes call.channel.name)),
    (codes "artifact", .object (artifact sha call)),
    (codes "dependencies", field recipe "runtime_dependencies" (.array [])),
    (codes "native", .object
      [(codes "has_extensions", field recipe "native" (.bool false)),
        (codes "needed_libraries", field recipe "required_shared_libs" (.array []))]),
    (codes "source", .object
      [(codes "url", field recipe "source_url" (.string [])),
        (codes "sha256", field recipe "source_sha256" (.string [])),
        (codes "license", field recipe "upstream_license" (.string []))]),
    (codes "verification", .object
      [(codes "build_passed", .bool call.buildPassed),
        (codes "elf_inspected", .bool call.elfInspected),
        (codes "device_tested", .bool false),
        (codes "tested_devices", .array [])])]

/-- `load_recipe` and `generate_manifest`; `none` if the script ends. -/
def generateManifest (call : Call) : Option Fields :=
  if isPackageName call.package = false then none
  else
    match call.recipe with
    | none => none
    | some recipe =>
      if has recipe "package" call.package = false then none
      else if py.str (field recipe "version" .null) ≠ call.version then none
      else some (manifestOf py sha call recipe)

end Manifest

/-! ## The channel directories -/

/-- The JSON files of the channels, by name. -/
abbrev Files := Channel → List (Codes × List UInt8)

def write (file : Codes × List UInt8) (dir : List (Codes × List UInt8)) :
    List (Codes × List UInt8) :=
  dir.filter (fun other => other.1 ≠ file.1) ++ [file]

def Call.filename (call : Call) : Codes :=
  call.package ++ codes "-" ++ call.version ++ codes "-" ++ codes call.abi ++ codes ".json"

/-- The file with this manifest. -/
def Call.file (call : Call) (manifest : Fields) : Codes × List UInt8 :=
  (call.filename, encode (dumped manifest ++ ['\n']))

section Publish

-- `valid` is `validate_manifest`, and that the file can be opened.
variable (py : Str) {σ : Type} (sha : Sha σ) (valid : Fields → Bool)

/-- `main` of `generate_manifest.py`. -/
def publish (files : Files) (call : Call) : Files :=
  match generateManifest py sha call with
  | none => files
  | some manifest =>
    if valid manifest = false then files
    else
      Function.update files call.channel
        (write (call.file manifest) (files call.channel))

/-- What is there after some calls. -/
def published (calls : List Call) : Files := calls.foldl (publish py sha valid) fun _ => []

end Publish

/-! ## The index -/

/-- `json.load`, of a file that may be no manifest. -/
def readManifest (content : List UInt8) : Option Fields :=
  match (decode content).bind Json.parse with
  | some (.object fields) =>
    if ["name", "version", "runtime_id", "abi", "artifact"].all fun key =>
      (get? fields (codes key)).isSome then some fields else none
  | _ => none

/-- The names of JSON files that are no manifests. -/
def isIndexName (name : Codes) : Bool := name = codes "index.json" || name = codes "packages.json"

/-- `collect_manifests`. -/
def collectManifests (dir : List (Codes × List UInt8)) : List Fields :=
  ((dir.filter fun file => (codes ".json").isSuffixOf file.1).mergeSort
    fun a b => a.1 ≤ b.1).filterMap fun file =>
      if isIndexName file.1 then none else readManifest file.2

def allManifests (files : Files) : List Fields :=
  [Channel.experimental, .candidate, .stable].flatMap fun channel =>
    collectManifests (files channel)

/-- `packages[name] = value`. -/
def assign (fields : Fields) (key : Codes) (value : Json) : Fields :=
  if ∃ field ∈ fields, field.1 = key then
    fields.map fun field => if field.1 = key then (key, value) else field
  else fields ++ [(key, value)]

/-- `m.get("name", "unknown")`, of a manifest with a string there. -/
def nameOf (manifest : Fields) : Codes :=
  match get? manifest (codes "name") with
  | some (.string name) => name
  | _ => codes "unknown"

/-- The `packages` of `generate_abi_json`. -/
def packagesOf (manifests : List Fields) (abi : Codes) : Fields :=
  (manifests.filter fun m => has m "abi" abi).foldl
    (fun packages m => assign packages (nameOf m) (.object m)) []

/-- `generate_abi_json`. -/
def generateAbiJson (manifests : List Fields) (runtimeId abi : Codes) : Fields :=
  [(codes "schema_version", .int 1), (codes "runtime_id", .string runtimeId),
    (codes "abi", .string abi), (codes "packages", .object (packagesOf manifests abi))]

/-- The file for an ABI that `generate_index(out, "all")` writes. -/
def indexFile (lock : Codes) (files : Files) (abi : Codes) : List UInt8 :=
  encode (dumped (generateAbiJson (allManifests files) lock abi))

/-- The file at `runtimes/<runtime_id>/<abi>.json`. -/
def served (lock : Codes) (files : Files) (runtimeId abi : Codes) : Option (List UInt8) :=
  if runtimeId = lock ∧ ∃ text ∈ indexAbis, codes text = abi then some (indexFile lock files abi)
  else none

/-! ## The client -/

/-- The limit of `_request_json`. -/
def maxMetadataBytes : ℕ := 5 * 1024 * 1024

section Client

variable (limits : Json.Limits)

/-- `_request_json`; `none` is an exception. `announced` is the
`Content-Length`, or zero. -/
def requestJson (announced : ℕ) (body : Option (List UInt8)) : Option Fields :=
  match body with
  | none => none
  | some content =>
    if maxMetadataBytes < announced then none
    else
      match (decode (content.take (maxMetadataBytes + 1))).bind (Json.loads limits) with
      | some (.object fields) => some fields
      | _ => none

/-- `_manifest_from_curated`, where `packages` is an object or missing. -/
def manifestFromCurated (runtimeId abi : Codes) (announced : ℕ) (body : Option (List UInt8))
    (name channel : Codes) : Except Error (Option Fields) :=
  match requestJson limits announced body with
  | none => .ok none
  | some index =>
    match get? index (codes "packages") with
    | some (.object packages) =>
      match get? packages name with
      | some (.object package) =>
        if has package "channel" channel = false then .ok none
        else if has package "runtime_id" runtimeId = false ∨ has package "abi" abi = false then
          .error .runtimeMismatch
        else .ok (some package)
      | _ => .ok none
    | _ => .ok none

end Client

/-- `str(artifact.get(key, ""))`, for `artifact = manifest.get("artifact") or {}`. -/
def artifactText (py : Str) (manifest : Fields) (key : String) : String :=
  match get? manifest (codes "artifact") with
  | some (.object artifact) =>
    String.ofList ((py.str (field artifact key (.string []))).map Char.ofNat)
  | _ => ""

/-! ## What a manifest says -/

theorem pieces_flatten {turnsLeft : ℕ} {content : List UInt8} (h : content.length ≤ turnsLeft) :
    (pieces turnsLeft content).flatten = content := by
  induction turnsLeft generalizing content with
  | zero =>
      rw [List.length_eq_zero_iff.mp (Nat.le_zero.mp h)]
      rfl
  | succ turnsLeft ih =>
      cases content with
      | nil => rfl
      | cons b content =>
          have hdrop : ((b :: content).drop 8192).length ≤ turnsLeft := by
            rw [List.length_drop]
            omega
          rw [pieces, List.flatten_cons, ih hdrop, List.take_append_drop]
          exact fun h => by cases h

section Fields

variable {py : Str} {σ : Type} {sha : Sha σ} {call : Call} {manifest : Fields}

theorem manifest_eq (h : generateManifest py sha call = some manifest) :
    ∃ recipe, call.recipe = some recipe ∧ manifest = manifestOf py sha call recipe := by
  rw [generateManifest] at h
  split_ifs at h
  split at h
  · cases h
  · rename_i recipe hrecipe
    split_ifs at h
    exact ⟨recipe, hrecipe, (Option.some.inj h).symm⟩

/-- What the index and the client read of a manifest. -/
structure Describes (call : Call) (manifest : Fields) : Prop where
  name : get? manifest (codes "name") = some (.string call.package)
  version : get? manifest (codes "version") = some (.string call.version)
  runtimeId : get? manifest (codes "runtime_id") = some (.string call.runtimeId)
  abi : get? manifest (codes "abi") = some (.string (codes call.abi))
  channel : get? manifest (codes "channel") = some (.string (codes call.channel.name))

theorem describes (h : generateManifest py sha call = some manifest) :
    Describes call manifest ∧
      get? manifest (codes "artifact") = some (.object (artifact sha call)) := by
  obtain ⟨recipe, -, rfl⟩ := manifest_eq h
  exact ⟨⟨rfl, rfl, rfl, rfl, rfl⟩, rfl⟩

theorem field_artifact (sha : Sha σ) (call : Call) :
    field (artifact sha call) "url" (.string []) = .string call.artifactUrl ∧
      field (artifact sha call) "sha256" (.string []) = .string
        ((call.wheel.map fun wheel => codes (sha.digest wheel.content)).getD []) := by
  rw [artifact]
  cases hwheel : call.wheel with
  | none => exact ⟨rfl, rfl⟩
  | some wheel =>
      have hdigest : sha.hexdigest
          ((pieces wheel.content.length wheel.content).foldl sha.update sha.new)
            = sha.digest wheel.content := by
        rw [sha.pieces, pieces_flatten (Nat.le_refl _)]
      refine ⟨rfl, ?_⟩
      dsimp only
      rw [hdigest]
      rfl

theorem ofList_codes (text : String) : String.ofList ((codes text).map Char.ofNat) = text := by
  have hchars : (codes text).map Char.ofNat = text.toList := by
    simp [codes, Function.comp_def]
  rw [hchars, String.ofList_toList]

theorem codes_injective : Function.Injective codes := by
  intro text text' h
  rw [← ofList_codes text, h, ofList_codes]

/-- The digest that the client expects is that of the wheel. -/
theorem artifactText_sha256 (h : generateManifest py sha call = some manifest) :
    artifactText py manifest "sha256"
      = (call.wheel.map fun wheel => sha.digest wheel.content).getD "" := by
  rw [artifactText, (describes h).2]
  dsimp only
  rw [(field_artifact sha call).2, py.text]
  cases call.wheel with
  | none => rfl
  | some wheel => exact ofList_codes _

/-! ### It can be written as JSON -/

theorem isText_codes (text : String) : IsText (codes text) := Json.isText_chars _

theorem sendable_field {recipe : Fields} (hrecipe : Sendable (.object recipe)) (key : String)
    {default : Json} (hdefault : Sendable default) : Sendable (field recipe key default) := by
  rw [field, get?]
  cases hfind : recipe.reverse.find? fun field => field.1 = codes key with
  | none => exact hdefault
  | some found =>
      cases hrecipe with
      | object _ hvalues =>
          exact hvalues found (List.mem_reverse.mp (List.mem_of_find?_eq_some hfind))

/-- The fields of a literal dict. -/
theorem sendable_object {fields : List (String × Json)} (h : ∀ field ∈ fields, Sendable field.2) :
    Sendable (.object (fields.map fun field => (codes field.1, field.2))) := by
  refine .object (fun field hfield => ?_) fun field hfield => ?_
  · obtain ⟨⟨key, v⟩, -, rfl⟩ := List.mem_map.mp hfield
    exact isText_codes key
  · obtain ⟨⟨key, v⟩, hmem, rfl⟩ := List.mem_map.mp hfield
    exact h _ hmem

theorem sendable_artifact (sha : Sha σ) (call : Call) : Sendable (.object (artifact sha call)) := by
  have hurl : IsText call.artifactUrl := call.texts _ (by simp)
  rw [artifact]
  cases call.wheel with
  | none =>
      refine @sendable_object [("filename", .string []), ("url", .string call.artifactUrl),
        ("size", .int 0), ("sha256", .string [])] ?_
      simp only [List.forall_mem_cons]
      exact ⟨.string (isText_codes ""), .string hurl, .int 0, .string (isText_codes ""),
        fun _ h => absurd h List.not_mem_nil⟩
  | some wheel =>
      refine @sendable_object [("filename", .string wheel.basename),
        ("url", .string call.artifactUrl), ("size", .int wheel.content.length),
        ("sha256", .string (codes _))] ?_
      simp only [List.forall_mem_cons]
      exact ⟨.string wheel.isText, .string hurl, .int _, .string (isText_codes _),
        fun _ h => absurd h List.not_mem_nil⟩

theorem sendable_manifest (h : generateManifest py sha call = some manifest) :
    Sendable (.object manifest) := by
  obtain ⟨recipe, hrecipe, rfl⟩ := manifest_eq h
  have hsendable := call.sendable recipe hrecipe
  have hfield (key : String) {default : Json} (hdefault : Sendable default) :
      Sendable (field recipe key default) := sendable_field hsendable key hdefault
  have hlist : Sendable (.array []) := .array fun _ h => absurd h List.not_mem_nil
  have htext (text : String) : Sendable (.string (codes text)) := .string (isText_codes text)
  have hnil : ∀ field ∈ ([] : List (String × Json)), Sendable field.2 :=
    fun _ h => absurd h List.not_mem_nil
  have htag : IsText (codes "cp" ++
      py.str (field recipe "python_version" (.string (codes "3XX")))) :=
    ((py.isText _ (hfield _ (htext _))).cons (by decide) rfl).cons (by decide) rfl
  have hnative : Sendable (.object
      [(codes "has_extensions", field recipe "native" (.bool false)),
        (codes "needed_libraries", field recipe "required_shared_libs" (.array []))]) := by
    refine @sendable_object [("has_extensions", field recipe "native" (.bool false)),
      ("needed_libraries", field recipe "required_shared_libs" (.array []))] ?_
    simp only [List.forall_mem_cons]
    exact ⟨hfield _ (.bool _), hfield _ hlist, hnil⟩
  have hsource : Sendable (.object
      [(codes "url", field recipe "source_url" (.string [])),
        (codes "sha256", field recipe "source_sha256" (.string [])),
        (codes "license", field recipe "upstream_license" (.string []))]) := by
    refine @sendable_object [("url", field recipe "source_url" (.string [])),
      ("sha256", field recipe "source_sha256" (.string [])),
      ("license", field recipe "upstream_license" (.string []))] ?_
    simp only [List.forall_mem_cons]
    exact ⟨hfield _ (htext ""), hfield _ (htext ""), hfield _ (htext ""), hnil⟩
  have hverification : Sendable (.object
      [(codes "build_passed", .bool call.buildPassed),
        (codes "elf_inspected", .bool call.elfInspected), (codes "device_tested", .bool false),
        (codes "tested_devices", .array [])]) := by
    refine @sendable_object [("build_passed", .bool call.buildPassed),
      ("elf_inspected", .bool call.elfInspected), ("device_tested", .bool false),
      ("tested_devices", .array [])] ?_
    simp only [List.forall_mem_cons]
    exact ⟨.bool _, .bool _, .bool _, hlist, hnil⟩
  have harg (text : Codes) (hmem : text ∈ [call.package, call.version, call.runtimeId,
      call.artifactUrl]) : Sendable (.string text) := .string (call.texts text hmem)
  refine @sendable_object [("schema_version", .int 1), ("name", .string call.package),
    ("version", .string call.version), ("runtime_id", .string call.runtimeId),
    ("python_tag", field recipe "python_tag" (.string (codes "cp" ++
      py.str (field recipe "python_version" (.string (codes "3XX")))))),
    ("abi", .string (codes call.abi)),
    ("android_min_api", field recipe "min_android_api" (.int 26)),
    ("channel", .string (codes call.channel.name)),
    ("artifact", .object (artifact sha call)),
    ("dependencies", field recipe "runtime_dependencies" (.array [])),
    ("native", .object _), ("source", .object _), ("verification", .object _)] ?_
  simp only [List.forall_mem_cons]
  exact ⟨.int 1, harg _ (by simp), harg _ (by simp), harg _ (by simp),
    hfield _ (.string htag), htext _, hfield _ (.int 26), htext _, sendable_artifact sha call,
    hfield _ hlist, hnative, hsource, hverification, hnil⟩

/-- What `generate_index.py` reads is what `generate_manifest.py` wrote. -/
theorem readManifest_dumped (h : generateManifest py sha call = some manifest) :
    readManifest (encode (dumped manifest ++ ['\n'])) = some manifest := by
  obtain ⟨hdescribes, hartifact⟩ := describes h
  have hparse : Json.parse (dumped manifest ++ ['\n']) = some (.object manifest) :=
    Json.parse_dumpValue_newline (sendable_manifest h)
  rw [readManifest, WsControl.decode_encode, Option.bind_some, hparse]
  dsimp only
  refine if_pos ?_
  simp [hdescribes.name, hdescribes.version, hdescribes.runtimeId, hdescribes.abi, hartifact]

end Fields

/-! ## What is in the directories -/

section Directories

variable {py : Str} {σ : Type} {sha : Sha σ} {valid : Fields → Bool} {calls : List Call}
  {call : Call} {channel : Channel} {file : Codes × List UInt8}

/-- The call writes this manifest into the directory of its channel. -/
structure Writes (py : Str) (sha : Sha σ) (valid : Fields → Bool) (call : Call)
    (manifest : Fields) : Prop where
  generates : generateManifest py sha call = some manifest
  valid : valid manifest = true

theorem publish_of_writes {files : Files} {manifest : Fields}
    (h : Writes py sha valid call manifest) :
    publish py sha valid files call = Function.update files call.channel
      (write (call.file manifest) (files call.channel)) := by
  rw [publish, h.generates]
  dsimp only
  rw [if_neg (by simp [h.valid])]

/-- A call writes its manifest or nothing. -/
theorem publish_cases (files : Files) (call : Call) :
    (∃ manifest, Writes py sha valid call manifest) ∨
      (∀ manifest, ¬Writes py sha valid call manifest) ∧
        publish py sha valid files call = files := by
  by_cases h : ∃ manifest, Writes py sha valid call manifest
  · exact .inl h
  · refine .inr ⟨not_exists.mp h, ?_⟩
    rw [publish]
    cases hgenerate : generateManifest py sha call with
    | none => rfl
    | some manifest =>
        dsimp only
        split_ifs with hvalid
        · rfl
        · exact absurd ⟨manifest, hgenerate, Bool.eq_true_of_not_eq_false hvalid⟩ h

theorem mem_write {new : Codes × List UInt8} {dir : List (Codes × List UInt8)} :
    file ∈ write new dir ↔ file = new ∨ file ∈ dir ∧ file.1 ≠ new.1 := by
  simp only [write, List.mem_append, List.mem_filter, List.mem_singleton, decide_eq_true_eq]
  exact or_comm

theorem published_concat (calls : List Call) (last : Call) :
    published py sha valid (calls ++ [last])
      = publish py sha valid (published py sha valid calls) last := List.foldl_concat ..

/-- Every file is the manifest of a call for its channel. -/
theorem mem_published (h : file ∈ published py sha valid calls channel) :
    ∃ call ∈ calls, ∃ manifest, Writes py sha valid call manifest ∧ call.channel = channel ∧
      file = call.file manifest := by
  induction calls using List.reverseRecOn with
  | nil => exact absurd h List.not_mem_nil
  | append_singleton calls last ih =>
      rw [published_concat] at h
      have hold (hmem : file ∈ published py sha valid calls channel) :
          ∃ call ∈ calls ++ [last], ∃ manifest, Writes py sha valid call manifest ∧
            call.channel = channel ∧ file = call.file manifest := by
        obtain ⟨call, hcall, hwrites⟩ := ih hmem
        exact ⟨call, List.mem_append_left _ hcall, hwrites⟩
      rcases @publish_cases py σ sha valid (published py sha valid calls) last with
        ⟨manifest, hwrites⟩ | ⟨-, hsame⟩
      · rw [publish_of_writes hwrites] at h
        by_cases hchannel : channel = last.channel
        · rw [hchannel, Function.update_self] at h
          rcases mem_write.mp h with rfl | ⟨hmem, -⟩
          · exact ⟨last, List.mem_concat_self .., manifest, hwrites, hchannel.symm, rfl⟩
          · exact hold (hchannel ▸ hmem)
        · rw [Function.update_of_ne hchannel] at h
          exact hold h
      · rw [hsame] at h
        exact hold h

/-- A file that no call writes with another manifest is there. -/
theorem file_published {manifest : Fields} (hwrites : Writes py sha valid call manifest)
    (hcall : call ∈ calls)
    (honly : ∀ other ∈ calls, ∀ manifest', Writes py sha valid other manifest' →
      other.channel = call.channel → other.filename = call.filename → manifest' = manifest) :
    call.file manifest ∈ published py sha valid calls call.channel := by
  induction calls using List.reverseRecOn with
  | nil => exact absurd hcall List.not_mem_nil
  | append_singleton calls last ih =>
      have hold (hmem : call ∈ calls) :
          call.file manifest ∈ published py sha valid calls call.channel :=
        ih hmem fun other hother => honly other (List.mem_append_left _ hother)
      rw [published_concat]
      rcases @publish_cases py σ sha valid (published py sha valid calls) last with
        ⟨manifest', hlast⟩ | ⟨hnone, hsame⟩
      · rw [publish_of_writes hlast]
        by_cases hchannel : last.channel = call.channel
        · rw [← hchannel, Function.update_self, mem_write]
          by_cases hname : last.filename = call.filename
          · obtain rfl := honly last (List.mem_concat_self ..) manifest' hlast hchannel hname
            exact .inl (Prod.ext hname.symm rfl)
          · refine .inr ⟨hchannel ▸ hold ?_, Ne.symm hname⟩
            rcases List.mem_append.mp hcall with hmem | hmem
            · exact hmem
            · exact absurd (congrArg Call.filename (List.mem_singleton.mp hmem)).symm hname
        · rw [Function.update_of_ne (Ne.symm hchannel)]
          refine hold ?_
          rcases List.mem_append.mp hcall with hmem | hmem
          · exact hmem
          · exact absurd (congrArg Call.channel (List.mem_singleton.mp hmem)).symm hchannel
      · rw [hsame]
        refine hold ?_
        rcases List.mem_append.mp hcall with hmem | hmem
        · exact hmem
        · exact absurd (List.mem_singleton.mp hmem ▸ hwrites) (hnone manifest)

theorem mem_collectManifests {manifest : Fields} {dir : List (Codes × List UInt8)} :
    manifest ∈ collectManifests dir ↔ ∃ file ∈ dir, codes ".json" <:+ file.1 ∧
      isIndexName file.1 = false ∧ readManifest file.2 = some manifest := by
  rw [collectManifests, List.mem_filterMap]
  constructor
  · rintro ⟨file, hfile, hread⟩
    split_ifs at hread with hindex
    obtain ⟨hmem, hjson⟩ := List.mem_filter.mp (List.mem_mergeSort.mp hfile)
    exact ⟨file, hmem, List.isSuffixOf_iff_suffix.mp hjson, Bool.eq_false_of_not_eq_true hindex,
      hread⟩
  · rintro ⟨file, hmem, hjson, hindex, hread⟩
    refine ⟨file, List.mem_mergeSort.mpr (List.mem_filter.mpr ⟨hmem, ?_⟩), ?_⟩
    · exact List.isSuffixOf_iff_suffix.mpr hjson
    · rw [hindex]
      exact hread

theorem mem_allManifests {manifest : Fields} {files : Files} :
    manifest ∈ allManifests files ↔ ∃ channel, manifest ∈ collectManifests (files channel) := by
  rw [allManifests, List.mem_flatMap]
  constructor
  · rintro ⟨channel, -, hmem⟩
    exact ⟨channel, hmem⟩
  · rintro ⟨channel, hmem⟩
    refine ⟨channel, ?_, hmem⟩
    cases channel <;> simp

/-- The file is taken for a manifest. -/
theorem filename_collected (call : Call) :
    codes ".json" <:+ call.filename ∧ isIndexName call.filename = false := by
  refine ⟨List.suffix_append _ _, ?_⟩
  have hdash : '-'.toNat ∈ call.filename := by simp [Call.filename, codes]
  have hne {name : String} (hnone : '-'.toNat ∉ codes name) : call.filename ≠ codes name :=
    fun heq => hnone (heq ▸ hdash)
  rw [isIndexName, decide_eq_false (hne (by decide)), decide_eq_false (hne (by decide))]
  rfl

/-- Every manifest of the index is one of a call for its channel. -/
theorem manifest_published {manifest : Fields}
    (h : manifest ∈ allManifests (published py sha valid calls)) :
    ∃ call ∈ calls, Writes py sha valid call manifest := by
  obtain ⟨channel, hcollect⟩ := mem_allManifests.mp h
  obtain ⟨file, hfile, -, -, hread⟩ := mem_collectManifests.mp hcollect
  obtain ⟨call, hcall, manifest', hwrites, -, rfl⟩ := mem_published hfile
  have hsame := (readManifest_dumped hwrites.generates).symm.trans hread
  exact ⟨call, hcall, Option.some.inj hsame ▸ hwrites⟩

/-- One call leaves its manifest. -/
theorem allManifests_single {manifest : Fields} (hwrites : Writes py sha valid call manifest) :
    allManifests (published py sha valid [call]) = [manifest] := by
  obtain ⟨hjson, hindex⟩ := filename_collected call
  have hjson' : (codes ".json").isSuffixOf (call.file manifest).1 = true :=
    List.isSuffixOf_iff_suffix.mpr hjson
  have hindex' : isIndexName (call.file manifest).1 = false := hindex
  have hread : readManifest (call.file manifest).2 = some manifest :=
    readManifest_dumped hwrites.generates
  have hfiles : published py sha valid [call]
      = Function.update (fun _ => []) call.channel [call.file manifest] := by
    rw [published, List.foldl_cons, List.foldl_nil, publish_of_writes hwrites]
    rfl
  have hcollect : collectManifests [call.file manifest] = [manifest] := by
    rw [collectManifests, List.filter_cons, if_pos hjson', List.filter_nil,
      List.mergeSort_singleton, List.filterMap_cons, hindex',
      if_neg Bool.false_ne_true, hread, List.filterMap_nil]
  have hnone : collectManifests [] = [] := by simp [collectManifests]
  rw [allManifests, hfiles]
  cases call.channel <;> simp [hcollect, hnone]

end Directories

/-! ## What is in the index -/

section Index

variable {py : Str} {σ : Type} {sha : Sha σ} {valid : Fields → Bool} {calls : List Call}
  {call : Call} {manifest : Fields}

theorem get?_snoc (fields : Fields) (key key' : Codes) (v : Json) :
    get? (fields ++ [(key, v)]) key' = if key = key' then some v else get? fields key' := by
  rw [get?, List.reverse_append, List.reverse_singleton, List.singleton_append, List.find?_cons]
  by_cases h : key = key'
  · simp [h]
  · simp [h, get?]

theorem get?_replaced (fields : Fields) (key key' : Codes) (v : Json) :
    get? (fields.map fun field => if field.1 = key then (key, v) else field) key'
      = (fields.reverse.find? fun field => field.1 = key').map fun field =>
          if field.1 = key then v else field.2 := by
  have hkeys : ((fun field : Codes × Json => decide (field.1 = key')) ∘ fun field =>
      if field.1 = key then (key, v) else field) = fun field => decide (field.1 = key') := by
    funext field
    by_cases h : field.1 = key <;> simp [h]
  rw [get?, ← List.map_reverse, List.find?_map, hkeys, Option.map_map]
  refine Option.map_congr fun field _ => ?_
  by_cases h : field.1 = key <;> simp [h]

theorem get?_assign (fields : Fields) (key key' : Codes) (v : Json) :
    get? (assign fields key v) key' = if key = key' then some v else get? fields key' := by
  rw [assign]
  split_ifs with hmem hkey hkey
  -- the key is there: what is found is the field that was found, replaced
  · obtain ⟨field, hfield, hname⟩ := hmem
    have hsome : (fields.reverse.find? fun field => field.1 = key).isSome = true :=
      List.find?_isSome.mpr ⟨field, List.mem_reverse.mpr hfield, decide_eq_true hname⟩
    obtain ⟨found, hfound⟩ := Option.isSome_iff_exists.mp hsome
    have hfits := List.find?_some (p := fun field : Codes × Json => decide (field.1 = key)) hfound
    rw [← hkey, get?_replaced, hfound, Option.map_some, if_pos (of_decide_eq_true hfits)]
  · rw [get?_replaced, get?]
    refine Option.map_congr fun found hfound => ?_
    have hfits := List.find?_some (p := fun field : Codes × Json => decide (field.1 = key')) hfound
    rw [if_neg fun h => hkey (h.symm.trans (of_decide_eq_true hfits))]
  · rw [get?_snoc, if_pos hkey]
  · rw [get?_snoc, if_neg hkey]

/-- **One slot for each name**: the index has the last manifest. -/
theorem get?_packagesOf (manifests : List Fields) (abi name : Codes) :
    get? (packagesOf manifests abi) name
      = ((manifests.filter fun m => has m "abi" abi && decide (nameOf m = name)).getLast?).map
          .object := by
  induction manifests using List.reverseRecOn with
  | nil => rfl
  | append_singleton manifests last ih =>
      rw [packagesOf, List.filter_append, List.foldl_append, List.filter_append]
      rw [packagesOf] at ih
      by_cases habi : has last "abi" abi = true
      · have hlast : ([last].filter fun m => has m "abi" abi) = [last] := by simp [habi]
        rw [hlast, List.foldl_cons, List.foldl_nil, get?_assign, ih]
        by_cases hname : nameOf last = name
        · simp [habi, hname]
        · simp [habi, hname]
      · simp [habi, ih]

/-- What the index has under a name is a manifest with that name and for
the ABI. -/
theorem mem_of_get?_packagesOf {manifests : List Fields} {abi name : Codes} {v : Json}
    (h : get? (packagesOf manifests abi) name = some v) :
    ∃ m ∈ manifests, v = .object m ∧ has m "abi" abi = true ∧ nameOf m = name := by
  rw [get?_packagesOf] at h
  obtain ⟨m, hlast, rfl⟩ := Option.map_eq_some_iff.mp h
  obtain ⟨hmem, hfits⟩ := List.mem_filter.mp (List.mem_of_getLast? hlast)
  rw [Bool.and_eq_true, decide_eq_true_eq] at hfits
  exact ⟨m, hmem, rfl, hfits⟩

/-- A manifest that no other one hides is under its name. -/
theorem get?_packagesOf_of_mem {manifests : List Fields} {abi name : Codes} {m : Fields}
    (hmem : m ∈ manifests) (habi : has m "abi" abi = true) (hname : nameOf m = name)
    (honly : ∀ m' ∈ manifests, has m' "abi" abi = true → nameOf m' = name → m' = m) :
    get? (packagesOf manifests abi) name = some (.object m) := by
  rw [get?_packagesOf]
  cases hlast : (manifests.filter fun m => has m "abi" abi && decide (nameOf m = name)).getLast?
    with
  | none =>
      have hnil := List.getLast?_eq_none_iff.mp hlast
      exact absurd (hnil ▸ List.mem_filter.mpr ⟨hmem, by simp [habi, hname]⟩) List.not_mem_nil
  | some last =>
      obtain ⟨hlastMem, hfits⟩ := List.mem_filter.mp (List.mem_of_getLast? hlast)
      rw [Bool.and_eq_true, decide_eq_true_eq] at hfits
      rw [Option.map_some, honly last hlastMem hfits.1 hfits.2]

theorem nameOf_manifest (h : generateManifest py sha call = some manifest) :
    nameOf manifest = call.package := by
  rw [nameOf, (describes h).1.name]

theorem mem_assign {fields : Fields} {key : Codes} {v : Json} {field : Codes × Json}
    (h : field ∈ assign fields key v) : field = (key, v) ∨ field ∈ fields := by
  rw [assign] at h
  split_ifs at h
  · obtain ⟨old, hold, rfl⟩ := List.mem_map.mp h
    split_ifs
    · exact .inl rfl
    · exact .inr hold
  · exact (List.mem_append.mp h).elim .inr fun hnew => .inl (List.mem_singleton.mp hnew)

theorem sendable_packagesOf {manifests : List Fields}
    (h : ∀ m ∈ manifests, IsText (nameOf m) ∧ Sendable (.object m)) (abi : Codes) :
    Sendable (.object (packagesOf manifests abi)) := by
  have hfields : ∀ field ∈ packagesOf manifests abi, IsText field.1 ∧ Sendable field.2 := by
    induction manifests using List.reverseRecOn with
    | nil => exact fun _ hfield => absurd hfield List.not_mem_nil
    | append_singleton manifests last ih =>
        intro field hfield
        have hold := ih fun m hm => h m (List.mem_append_left _ hm)
        rw [packagesOf, List.filter_append, List.foldl_append] at hfield
        by_cases habi : has last "abi" abi = true
        · have hlast : ([last].filter fun m => has m "abi" abi) = [last] := by simp [habi]
          rw [hlast, List.foldl_cons, List.foldl_nil] at hfield
          rcases mem_assign hfield with rfl | hmem
          · exact h last (List.mem_concat_self ..)
          · exact hold field hmem
        · have hlast : ([last].filter fun m => has m "abi" abi) = [] := by simp [habi]
          rw [hlast, List.foldl_nil] at hfield
          exact hold field hfield
  exact .object (fun field hfield => (hfields field hfield).1)
    fun field hfield => (hfields field hfield).2

/-- The index of what some calls have published can be written and read. -/
theorem sendable_index {lock abi : Codes} (hlock : IsText lock) (habi : IsText abi) :
    Sendable (.object
      (generateAbiJson (allManifests (published py sha valid calls)) lock abi)) := by
  have hmanifests : ∀ m ∈ allManifests (published py sha valid calls),
      IsText (nameOf m) ∧ Sendable (.object m) := by
    intro m hm
    obtain ⟨call, -, hwrites⟩ := manifest_published hm
    rw [nameOf_manifest hwrites.generates]
    exact ⟨call.texts _ (by simp), sendable_manifest hwrites.generates⟩
  have hpackages := sendable_packagesOf hmanifests abi
  refine @sendable_object [("schema_version", .int 1), ("runtime_id", .string lock),
    ("abi", .string abi), ("packages", .object _)] ?_
  simp only [List.forall_mem_cons]
  exact ⟨.int 1, .string hlock, .string habi, hpackages, fun _ h => absurd h List.not_mem_nil⟩

end Index

/-! ## What the client finds -/

section Client

variable {py : Str} {σ : Type} {sha : Sha σ} {valid : Fields → Bool} {calls : List Call}
  {call : Call} {manifest : Fields} {limits : Json.Limits} {lock runtimeId abi : Codes}
  {announced : ℕ}

/-- What can be decoded of the beginning of a text is the beginning of it. -/
theorem prefix_of_decode {text read : List Char} {n : ℕ}
    (h : decode ((encode text).take n) = some read) : read <+: text := by
  obtain ⟨chars, hchars, hread⟩ := Option.map_eq_some_iff.mp h
  obtain ⟨read', hencode⟩ := ByteArray.isSome_utf8Decode?_iff.mp (Option.isSome_of_eq_some hchars)
  rw [hencode, List.utf8Decode?_utf8Encode] at hchars
  obtain rfl := Option.some.inj hchars
  have hread : read' = read := hread
  subst hread
  refine List.isPrefix_of_utf8Encode_append_eq_utf8Encode ((encode text).drop n).toByteArray ?_
  rw [← hencode, ← List.toByteArray_append, List.take_append_drop]
  rfl

/-- What is read of an object, if anything is, is this object: one that is
cut off at the limit is an error. -/
theorem requestJson_dumped {fields index : Fields} (hsendable : Sendable (.object fields))
    (h : requestJson limits announced (some (encode (dumped fields))) = some index) :
    index = fields := by
  rw [requestJson] at h
  split_ifs at h
  split at h
  · rename_i index' hread
    obtain rfl := Option.some.inj h
    obtain ⟨text, hdecode, hloads⟩ := Option.bind_eq_some_iff.mp hread
    obtain ⟨more, hmore⟩ := prefix_of_decode hdecode
    have hwhole : Json.parse (text ++ more) = some (.object fields) := by
      rw [hmore]
      exact Json.parse_dumpValue hsendable
    have hparse := (Option.filter_eq_some_iff.mp hloads).1
    exact (Json.object.inj (Json.parse_object_append hparse hwhole).1).symm
  · cases h

/-- A body that fits is read. -/
theorem requestJson_fits {fields : Fields} (hsendable : Sendable (.object fields))
    (hsize : (encode (dumped fields)).length ≤ maxMetadataBytes)
    (hannounced : announced ≤ maxMetadataBytes)
    (hwithin : Json.within limits.maxDigits limits.nesting (.object fields) = true) :
    requestJson limits announced (some (encode (dumped fields))) = some fields := by
  have hall : (encode (dumped fields)).take (maxMetadataBytes + 1) = encode (dumped fields) :=
    List.take_of_length_le (Nat.le_succ_of_le hsize)
  have hparse : Json.parse (dumped fields) = some (.object fields) :=
    Json.parse_dumpValue hsendable
  rw [requestJson, if_neg (Nat.not_lt.mpr hannounced), hall, WsControl.decode_encode,
    Option.bind_some, Json.loads, hparse, Option.filter_some, if_pos hwithin]

theorem served_eq {body : List UInt8} {files : Files}
    (h : served lock files runtimeId abi = some body) :
    runtimeId = lock ∧ IsText abi ∧ body = indexFile lock files abi := by
  rw [served] at h
  split_ifs at h with hserved
  obtain ⟨hlock, text, -, rfl⟩ := hserved
  exact ⟨hlock, isText_codes text, (Option.some.inj h).symm⟩

theorem get?_packages (manifests : List Fields) (lock abi : Codes) :
    get? (generateAbiJson manifests lock abi) (codes "packages")
      = some (.object (packagesOf manifests abi)) := rfl

/-- What the client finds is in the index, and is for it. -/
theorem found_listed {files : Files} {name channel : Codes} {package : Fields}
    (hsendable : ∀ abi, IsText abi → Sendable
      (.object (generateAbiJson (allManifests files) lock abi)))
    (h : manifestFromCurated limits runtimeId abi announced (served lock files runtimeId abi)
      name channel = .ok (some package)) :
    package ∈ allManifests files ∧ nameOf package = name ∧ has package "channel" channel = true ∧
      has package "runtime_id" runtimeId = true ∧ has package "abi" abi = true := by
  rw [manifestFromCurated] at h
  split at h
  · cases h
  · rename_i index hread
    cases hserved : served lock files runtimeId abi with
    | none =>
        rw [hserved] at hread
        cases hread
    | some body =>
        obtain ⟨-, habi, rfl⟩ := served_eq hserved
        rw [hserved] at hread
        obtain rfl := requestJson_dumped (hsendable abi habi) hread
        rw [get?_packages] at h
        dsimp only at h
        split at h
        · rename_i package' hpackage
          split_ifs at h with hchannel hfits
          · cases Except.ok.inj h
          obtain rfl := Option.some.inj (Except.ok.inj h)
          obtain ⟨hruntime, habi'⟩ := not_or.mp hfits
          obtain ⟨m, hm, hobject, -, hname⟩ := mem_of_get?_packagesOf hpackage
          obtain rfl := Json.object.inj hobject
          exact ⟨hm, hname, Bool.eq_true_of_not_eq_false hchannel,
            Bool.eq_true_of_not_eq_false hruntime, Bool.eq_true_of_not_eq_false habi'⟩
        · cases h

/-- A manifest that the index has for the client is found, if the index can
be read. -/
theorem found_of_listed {files : Files} {name channel : Codes} {package : Fields}
    (hread : requestJson limits announced (served lock files runtimeId abi)
      = some (generateAbiJson (allManifests files) lock abi))
    (hget : get? (packagesOf (allManifests files) abi) name = some (.object package))
    (hchannel : has package "channel" channel = true)
    (hruntime : has package "runtime_id" runtimeId = true) (habi : has package "abi" abi = true) :
    manifestFromCurated limits runtimeId abi announced (served lock files runtimeId abi) name
      channel = .ok (some package) := by
  rw [manifestFromCurated, hread]
  dsimp only
  rw [get?_packages]
  dsimp only
  rw [hget]
  dsimp only
  rw [if_neg (by simp [hchannel]), if_neg (by simp [hruntime, habi])]

/-- Without a digest nothing is downloaded. -/
theorem fetch_without_digest (sha : Sha σ) (turnsLeft : ℕ) (url : String) (conn : Connection)
    (before : Option (List UInt8)) {done : ℕ × String} {file : Option (List UInt8)} :
    fetch sha turnsLeft url "" conn before ≠ some (.ok done, file) := by
  have hrefused : ∃ error, WheelDownload.refusal url "" conn = some error := by
    have hsha : (!isSha256 "") = true := rfl
    rw [WheelDownload.refusal, if_pos hsha]
    split_ifs
    · exact ⟨_, rfl⟩
    · exact ⟨_, rfl⟩
  obtain ⟨error, herror⟩ := hrefused
  rw [fetch, herror]
  exact fun h => by cases h

/-- **From the wheel to the phone**: a manifest that the client finds was
generated for the package, the channel, the runtime and the ABI that it
asks for, and what it downloads by this manifest is the wheel. -/
theorem wheel_arrives {name channel : Codes} {package : Fields} (hlock : IsText lock)
    (h : manifestFromCurated limits runtimeId abi announced
      (served lock (published py sha valid calls) runtimeId abi) name channel
        = .ok (some package)) :
    ∃ call ∈ calls, generateManifest py sha call = some package ∧ call.package = name ∧
      codes call.channel.name = channel ∧ call.runtimeId = runtimeId ∧ codes call.abi = abi ∧
      ∀ turnsLeft (conn : Connection) before total actual file,
        fetch sha turnsLeft (artifactText py package "url") (artifactText py package "sha256") conn
            before = some (.ok (total, actual), file) →
          ∃ wheel body, call.wheel = some wheel ∧ file = some body ∧
            sha.digest body = sha.digest wheel.content := by
  obtain ⟨hlisted, hname, hchannel, hruntime, habi⟩ :=
    found_listed (fun abi habi => sendable_index hlock habi) h
  obtain ⟨call, hcall, hwrites⟩ := manifest_published hlisted
  have hgenerates := hwrites.generates
  have hdescribes := (describes hgenerates).1
  -- what the client compares is what the call was given
  have hsame {key : String} {text text' : Codes} (hhas : has package key text = true)
      (hget : get? package (codes key) = some (.string text')) : text' = text :=
    Json.string.inj (Option.some.inj (hget.symm.trans (has_iff.mp hhas)))
  refine ⟨call, hcall, hgenerates, (nameOf_manifest hgenerates).symm.trans hname,
    hsame hchannel hdescribes.channel, hsame hruntime hdescribes.runtimeId,
    hsame habi hdescribes.abi, ?_⟩
  intro turnsLeft conn before total actual file hfetch
  rw [artifactText_sha256 hgenerates] at hfetch
  cases hwheel : call.wheel with
  | none =>
      -- without a wheel there is no digest, and the download is refused
      rw [hwheel, Option.map_none, Option.getD_none] at hfetch
      exact absurd hfetch (fetch_without_digest _ _ _ _ _)
  | some wheel =>
      rw [hwheel, Option.map_some, Option.getD_some] at hfetch
      obtain ⟨body, -, hfile, -, -, hdigest⟩ := WheelDownload.fetch_ok hfetch
      exact ⟨wheel, body, rfl, hfile, hdigest⟩

/-- The client finds a manifest that is for its runtime, where the index
can be read and no other call has taken its file or its place. -/
theorem manifest_found (hlock : IsText lock) (hcall : call ∈ calls)
    (hwrites : Writes py sha valid call manifest) (hruntime : call.runtimeId = lock)
    (honly : ∀ other ∈ calls, ∀ manifest', Writes py sha valid other manifest' →
      (other.package = call.package ∧ other.abi = call.abi) ∨
        (other.channel = call.channel ∧ other.filename = call.filename) → manifest' = manifest)
    (hsize : (indexFile lock (published py sha valid calls) (codes call.abi)).length
      ≤ maxMetadataBytes)
    (hannounced : announced ≤ maxMetadataBytes)
    (hwithin : Json.within limits.maxDigits limits.nesting (.object
      (generateAbiJson (allManifests (published py sha valid calls)) lock (codes call.abi)))
        = true) :
    manifestFromCurated limits call.runtimeId (codes call.abi) announced
        (served lock (published py sha valid calls) call.runtimeId (codes call.abi)) call.package
        (codes call.channel.name) = .ok (some manifest) := by
  have hdescribes := (describes hwrites.generates).1
  have hfile := file_published hwrites hcall fun other hother manifest' hother' hchannel hname =>
    honly other hother manifest' hother' (.inr ⟨hchannel, hname⟩)
  have hlisted : manifest ∈ allManifests (published py sha valid calls) := by
    obtain ⟨hjson, hindex⟩ := filename_collected call
    exact mem_allManifests.mpr ⟨call.channel, mem_collectManifests.mpr
      ⟨_, hfile, hjson, hindex, readManifest_dumped hwrites.generates⟩⟩
  have hpackage : get? (packagesOf (allManifests (published py sha valid calls)) (codes call.abi))
      call.package = some (.object manifest) := by
    refine get?_packagesOf_of_mem hlisted (has_iff.mpr hdescribes.abi)
      (nameOf_manifest hwrites.generates) fun m hm hmabi hmname => ?_
    obtain ⟨other, hother, hotherWrites⟩ := manifest_published hm
    have hotherAbi := (describes hotherWrites.generates).1.abi
    refine honly other hother m hotherWrites (.inl ⟨?_, ?_⟩)
    · exact (nameOf_manifest hotherWrites.generates).symm.trans hmname
    · exact codes_injective (Json.string.inj (Option.some.inj
        (hotherAbi.symm.trans (has_iff.mp hmabi))))
  have hread : requestJson limits announced
      (served lock (published py sha valid calls) call.runtimeId (codes call.abi))
        = some (generateAbiJson (allManifests (published py sha valid calls)) lock
          (codes call.abi)) := by
    rw [served, if_pos ⟨hruntime, _, call.abi_mem, rfl⟩]
    exact requestJson_fits (sendable_index hlock (isText_codes _)) hsize hannounced hwithin
  exact found_of_listed hread hpackage (has_iff.mpr hdescribes.channel)
    (has_iff.mpr hdescribes.runtimeId) (has_iff.mpr hdescribes.abi)

/-- `str`, of strings. -/
def plainStr : Str where
  str v := match v with
    | .string text => text
    | _ => []
  text _ := rfl
  isText v hv := by
    cases hv with
    | string h => exact h
    | _ => exact isText_codes ""

def abcRecipe : Fields :=
  [(codes "package", .string (codes "abc")), (codes "version", .string (codes "1"))]

def abcCall : Call where
  package := codes "abc"
  version := codes "1"
  runtimeId := codes "r1"
  abi := "arm64-v8a"
  channel := .experimental
  wheel := some ⟨codes "abc.whl", [0x61, 0x62, 0x63], isText_codes _⟩
  artifactUrl := codes "https://host/abc.whl"
  buildPassed := true
  elfInspected := true
  recipe := some abcRecipe
  abi_mem := by simp [indexAbis]
  direct := by decide
  texts := by
    simp only [List.forall_mem_cons]
    exact ⟨isText_codes _, isText_codes _, isText_codes _, isText_codes _,
      fun _ h => absurd h List.not_mem_nil⟩
  sendable fields h := by
    obtain rfl := Option.some.inj h
    refine @sendable_object
      [("package", .string (codes "abc")), ("version", .string (codes "1"))] ?_
    simp only [List.forall_mem_cons]
    exact ⟨.string (isText_codes _), .string (isText_codes _), fun _ h => absurd h List.not_mem_nil⟩

def abcManifest : Fields := manifestOf plainStr WheelDownload.abcSha abcCall abcRecipe

theorem abc_writes :
    Writes plainStr WheelDownload.abcSha (fun _ => true) abcCall abcManifest where
  generates := rfl
  valid := rfl

/-- The only call. -/
abbrev abcPublished : Files :=
  published plainStr WheelDownload.abcSha (fun _ => true) [abcCall]

theorem abc_listed : allManifests abcPublished = [abcManifest] := allManifests_single abc_writes

theorem abc_fits :
    (indexFile (codes "r1") abcPublished (codes "arm64-v8a")).length ≤ maxMetadataBytes ∧
      Json.within (some 4300) 1000 (.object
        (generateAbiJson (allManifests abcPublished) (codes "r1") (codes "arm64-v8a"))) = true := by
  rw [indexFile, abc_listed]
  decide +kernel

theorem abc_found :
    manifestFromCurated ⟨1000, some 4300⟩ (codes "r1") (codes "arm64-v8a") 0
      (served (codes "r1") abcPublished (codes "r1") (codes "arm64-v8a")) (codes "abc")
        (codes "experimental") = .ok (some abcManifest) := by
  have hserved : served (codes "r1") abcPublished (codes "r1") (codes "arm64-v8a")
      = some (indexFile (codes "r1") abcPublished (codes "arm64-v8a")) :=
    if_pos ⟨rfl, _, abcCall.abi_mem, rfl⟩
  refine found_of_listed ?_ ?_ (has_iff.mpr rfl) (has_iff.mpr rfl) (has_iff.mpr rfl)
  · rw [hserved]
    exact requestJson_fits (sendable_index (isText_codes _) (isText_codes _)) abc_fits.1
      (Nat.zero_le _) abc_fits.2
  · rw [abc_listed]
    rfl

theorem manifest_found_only :
    manifestFromCurated ⟨1000, some 4300⟩ (codes "r1") (codes "arm64-v8a") 0
      (served (codes "r1") abcPublished (codes "r1") (codes "arm64-v8a")) (codes "abc")
        (codes "experimental") = .ok (some abcManifest) := by
  refine @manifest_found plainStr _ WheelDownload.abcSha (fun _ => true) [abcCall] abcCall _
    ⟨1000, some 4300⟩ (codes "r1") 0 (isText_codes _) List.mem_cons_self abc_writes rfl ?_
    abc_fits.1 (Nat.zero_le _) abc_fits.2
  intro other hother manifest' hwrites _
  obtain rfl := List.mem_singleton.mp hother
  exact Option.some.inj (hwrites.generates.symm.trans abc_writes.generates)

theorem abc_arrives :
    ∃ call ∈ [abcCall], generateManifest plainStr WheelDownload.abcSha call = some abcManifest ∧
      call.package = codes "abc" ∧ codes call.channel.name = codes "experimental" ∧
      call.runtimeId = codes "r1" ∧ codes call.abi = codes "arm64-v8a" ∧
      ∀ turnsLeft (conn : Connection) before total actual file,
        fetch WheelDownload.abcSha turnsLeft (artifactText plainStr abcManifest "url")
            (artifactText plainStr abcManifest "sha256") conn before
              = some (.ok (total, actual), file) →
          ∃ wheel body, call.wheel = some wheel ∧ file = some body ∧
            WheelDownload.abcSha.digest body = WheelDownload.abcSha.digest wheel.content :=
  @wheel_arrives plainStr _ WheelDownload.abcSha (fun _ => true) [abcCall] ⟨1000, some 4300⟩
    (codes "r1") _ _ 0 _ _ _ (isText_codes _) abc_found

end Client

end PublishedWheel

end Zmux
