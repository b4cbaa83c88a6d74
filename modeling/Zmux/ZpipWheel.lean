import Zmux.ZpipState

/-!
# Downloading and unpacking a wheel

`_download`, `_safe_members` and `_extract` of `zpip.py`: from a URL and
the digest the manifest declares to the staged files of the wheel.
-/

namespace Zmux

def maxWheelBytes : Nat := 100 * 1024 * 1024

/-- `_SHA256.fullmatch`. -/
def isSha256 (s : String) : Bool :=
  s.toList.length = 64
    && s.toList.all fun c => ('a' ≤ c && c ≤ 'f') || ('0' ≤ c && c ≤ '9')

/-- `str.endswith`. -/
def endsWith (suffix s : String) : Bool := suffix.toList.isSuffixOf s.toList

/-- `_download`: the response, once its size and digest are accepted. -/
def download (env : Env) (t : Txn) (url expected : String) : Except Error Response :=
  if !("https://".toList.isPrefixOf url.toList) then .error .notHttps
  else if !isSha256 expected then .error .invalidSha256
  else match env.fetch t url with
    | none => .error (.raised .download)
    | some response =>
      if env.fault t .download then .error (.raised .download)
      else if maxWheelBytes < response.announced then .error .wheelTooLarge
      else if maxWheelBytes < response.size then .error .wheelTooLarge
      else if response.sha256 ≠ expected then
        .error (.sha256Mismatch expected response.sha256)
      else .ok response

/-! ## Members -/

/-- `ZipInfo.is_dir`. -/
def Member.isDir (m : Member) : Bool := endsWith "/" m.filename

/-- The loop of `_safe_members` over the archive listing. -/
def safeMembersLoop : List Member → (seen : List String) → (total : Nat) →
    Except Error (List (RelName × Content))
  | [], _, _ => .ok []
  | m :: ms, seen, total =>
    if h : safePath m.filename = true then
      if m.filename ∈ seen then .error (.duplicateMember m.filename)
      else if m.isDir then safeMembersLoop ms seen total
      else if maxWheelBytes < m.fileSize ∨ maxWheelBytes * 3 < total + m.fileSize then
        .error .contentTooLarge
      else match safeMembersLoop ms (m.filename :: seen) (total + m.fileSize) with
        | .error e => .error e
        | .ok rest => .ok ((⟨m.filename, h⟩, m.content) :: rest)
    else .error (.unsafePath m.filename)

def safeMembers (archive : List Member) : Except Error (List (RelName × Content)) :=
  match safeMembersLoop archive [] 0 with
  | .error e => .error e
  | .ok members =>
    if !members.any (fun m => endsWith ".dist-info/WHEEL" m.1.raw) then .error .noWheelMetadata
    else if !members.any (fun m => endsWith ".dist-info/RECORD" m.1.raw) then
      .error .noWheelRecord
    else .ok members

/-! ## Extraction -/

/-- Write the members into the staging directory, in archive order. A name
without components denotes the directory itself, and opening it raises. -/
def extractLoop : List (RelName × Content) → Tree → Except Error Tree
  | [], staging => .ok staging
  | (f, content) :: rest, staging =>
    if f.path = [] then .error (.raised .extract)
    else extractLoop rest (Function.update staging f.path (some content))

/-- `_extract`: the names of the members and the staged tree. -/
def extract (env : Env) (t : Txn) (archive : Option (List Member)) :
    Except Error (List RelName × Tree) :=
  match archive with
  | none => .error .badZipFile
  | some archive =>
    match safeMembers archive with
    | .error e => .error e
    | .ok members =>
      if env.fault t .extract then .error (.raised .extract)
      else match extractLoop members (fun _ => none) with
        | .error e => .error e
        | .ok staging => .ok (members.map (·.1), staging)

end Zmux
