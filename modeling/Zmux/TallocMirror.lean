import Mathlib.Logic.Function.Basic
import Zmux.Runs

/-!
# The talloc mirror

The APK packages talloc as `libtalloc.so`, as `libtalloc.so.2` or under
both names, and the linker wants the exact name that `libproot.so`
records. `_ensure_talloc_compat` therefore copies what is packaged under
one name to the other name, in a directory of the app's own that
`proot_env` puts ahead of the packaged one on `LD_LIBRARY_PATH`.

The copy outlives upgrades of the app and is made only where there is no
file yet. It is fresh (`Phone.Fresh`) when every mirrored file is what the
current version packages. A call that returns the mirror resolves every
name to the current version just then (`call_current_iff`), and a step
keeps a fresh mirror fresh just when it is careful
(`fresh_step_iff`): an upgrade with other content finds nothing mirrored,
and no copy leaves an incomplete file.
-/

namespace Zmux

namespace TallocMirror

/-! ## Files -/

/-- `libtalloc.so` and `libtalloc.so.2`. -/
inductive SoName where
  | unversioned
  | versioned
deriving DecidableEq

/-- What one directory has under the two names. -/
abbrev LibDir := SoName → Option (List UInt8)

/-- An app version: the names it packages talloc under, and the bytes. -/
structure Version where
  unversioned : Bool
  versioned : Bool
  content : List UInt8
  packaged : unversioned = true ∨ versioned = true

/-- The directory `nativeLibraryDir` of the version. -/
def Version.libDir (v : Version) : LibDir
  | .unversioned => if v.unversioned then some v.content else none
  | .versioned => if v.versioned then some v.content else none

/-- The directories that `LD_LIBRARY_PATH` names: `_RUNTIME_LIB_DIR`,
`nativeLibraryDir`, and the directory of a desktop's proot. -/
inductive Dir where
  | runtimeLib
  | native
  | neighbor
deriving DecidableEq

/-! ## Copies -/

/-- How `shutil.copy2` ends: it returns, raises `OSError`, or the process
is killed under it. In the last two cases the target holds the first
`written` bytes; `none` means that it was not created. -/
inductive Copy where
  | returned
  | raised (written : Option Nat)
  | killed (written : Option Nat)

inductive Stop where
  | raised
  | killed
deriving DecidableEq

namespace Copy

def stop : Copy → Option Stop
  | .returned => none
  | .raised _ => some .raised
  | .killed _ => some .killed

/-- What the target holds afterwards. -/
def target (source : List UInt8) : Copy → Option (List UInt8)
  | .returned => some source
  | .raised written => written.map source.take
  | .killed written => written.map source.take

/-- The copy leaves no incomplete file. -/
def Whole (source : List UInt8) (copy : Copy) : Prop :=
  ∀ part, copy.target source = some part → part = source

end Copy

/-- `if source.is_file() and not target.is_file(): shutil.copy2(source, target)`. -/
def mirrorFile (copy : Copy) (source : Option (List UInt8)) (name : SoName) (mirror : LibDir) :
    Option Stop × LibDir :=
  match source, mirror name with
  | some content, none => (copy.stop, Function.update mirror name (copy.target content))
  | _, _ => (none, mirror)

/-- What the file system does in one call. A `chmod` that fails is
swallowed. -/
structure Ops where
  mkdirRaises : Bool
  copy : SoName → Copy

/-- The directory to put on the path, if a mirrored file is there. -/
def compatDir (mirror : LibDir) : Option Dir :=
  if (mirror .versioned).isSome || (mirror .unversioned).isSome then some .runtimeLib else none

/-- `_ensure_talloc_compat`: its result, `none` if the process was killed,
and the mirror it leaves. -/
def ensureTallocCompat (lib : LibDir) (ops : Ops) (mirror : LibDir) :
    Option (Option Dir) × LibDir :=
  if ((lib .unversioned).isSome || (lib .versioned).isSome)
      && ((mirror .versioned).isNone || (mirror .unversioned).isNone) then
    if ops.mkdirRaises then (some none, mirror)
    else
      match mirrorFile (ops.copy .versioned) (lib .unversioned) .versioned mirror with
      | (some .killed, mirror) => (none, mirror)
      | (some .raised, mirror) => (some none, mirror)
      | (none, mirror) =>
        match mirrorFile (ops.copy .unversioned) (lib .versioned) .unversioned mirror with
        | (some .killed, mirror) => (none, mirror)
        | (some .raised, mirror) => (some none, mirror)
        | (none, mirror) => (some (compatDir mirror), mirror)
  else (some (compatDir mirror), mirror)

/-! ## The environment of a proot child -/

def guestPath : String := "/usr/local/sbin:/usr/local/bin:/usr/sbin:/usr/bin:/sbin:/bin"

def guestHome : String := "/root"

/-- The extra variables. `LD_LIBRARY_PATH` is the list of its directories,
which `os.pathsep` joins. -/
structure ProotEnv where
  path : String
  home : String
  ldLibraryPath : Option (List Dir)
  prootLoader : Option String
  prootTmpDir : Option String

/-- Where the call runs: on Android with the result of
`native_library_dir`, or elsewhere with that of `proot_binary`. -/
inductive Host where
  | android (nativeLibraryDir : Option String)
  | desktop (prootBinary : Option String)

/-- `os.path.join` of a directory and a file name. -/
def joinPath (dir file : String) : String :=
  if dir.toList.getLast? = some '/' then dir ++ file else dir ++ "/" ++ file

/-- `proot_env`, with the packaged directory and the mirror. -/
def prootEnv (cacheDir : String) (host : Host) (ops : Ops) (lib mirror : LibDir) :
    Option ProotEnv × LibDir :=
  let extra : ProotEnv := ⟨guestPath, guestHome, none, none, none⟩
  match host with
  | .android nativeLibraryDir =>
    let libDir := nativeLibraryDir.getD ""
    if libDir ≠ "" then
      let extra := { extra with
        prootLoader := some (joinPath libDir "libproot-loader.so")
        prootTmpDir := some cacheDir }
      match ensureTallocCompat lib ops mirror with
      | (none, mirror) => (none, mirror)
      | (some none, mirror) => (some { extra with ldLibraryPath := some [.native] }, mirror)
      | (some (some dir), mirror) =>
        (some { extra with ldLibraryPath := some [dir, .native] }, mirror)
    else (some extra, mirror)
  | .desktop prootBinary =>
    (some { extra with ldLibraryPath := prootBinary.map fun _ => [.neighbor] }, mirror)

/-! ## What a call does -/

/-- The call finds the packaged directory. -/
def Finds (nativeLibraryDir : Option String) : Prop := nativeLibraryDir.getD "" ≠ ""

instance (dir : Option String) : Decidable (Finds dir) := inferInstanceAs (Decidable (_ ≠ _))

section Ensure

variable (v : Version) (ops : Ops) (mirror : LibDir)

/-- `_ensure_talloc_compat` starts the copy to this name. The copy to
`libtalloc.so` comes second. -/
def Starts : SoName → Prop
  | .versioned => ops.mkdirRaises = false ∧ v.unversioned = true ∧ mirror .versioned = none
  | .unversioned => ops.mkdirRaises = false ∧ v.versioned = true ∧ mirror .unversioned = none
      ∧ (v.unversioned = true → mirror .versioned = none → (ops.copy .versioned).stop = none)

/-- An operation raises `OSError`, and the call gives the mirror up. -/
def Abandons : Prop :=
  (ops.mkdirRaises = true ∧ ∃ name, mirror name = none)
    ∨ ∃ name, Starts v ops mirror name ∧ (ops.copy name).stop = some .raised

variable {v ops mirror}

theorem libDir_content {name : SoName} {content : List UInt8} (h : v.libDir name = some content) :
    content = v.content := by
  cases name <;>
    · rw [Version.libDir] at h
      split at h
      · exact (Option.some.inj h).symm
      · cases h

theorem starts_absent {name : SoName} (h : Starts v ops mirror name) : mirror name = none := by
  cases name with
  | unversioned => exact h.2.2.1
  | versioned => exact h.2.2

/-- What the call leaves in the mirror. -/
structure Leaves (v : Version) (ops : Ops) (mirror mirror' : LibDir) : Prop where
  copied : ∀ name, Starts v ops mirror name → mirror' name = (ops.copy name).target v.content
  kept : ∀ name, ¬Starts v ops mirror name → mirror' name = mirror name

theorem leaves_same (h : ∀ name, ¬Starts v ops mirror name) : Leaves v ops mirror mirror :=
  ⟨fun name hstarts => (h name hstarts).elim, fun _ _ => rfl⟩

theorem stop_none {copy : Copy} {source : List UInt8} (h : copy.stop = none) :
    copy.target source = some source := by
  cases copy with
  | returned => rfl
  | raised => cases h
  | killed => cases h

/-- The copy is made if the source is packaged and the target is not there. -/
theorem mirrorFile_cases (copy : Copy) (packaged : Bool) (content : List UInt8) (name : SoName)
    (mirror : LibDir) :
    ∃ stop mirror', mirrorFile copy (if packaged then some content else none) name mirror
        = (stop, mirror')
      ∧ (∀ other ≠ name, mirror' other = mirror other)
      ∧ ((packaged = true ∧ mirror name = none ∧ stop = copy.stop
          ∧ mirror' name = copy.target content)
        ∨ (packaged = true → mirror name ≠ none) ∧ stop = none ∧ mirror' = mirror) := by
  by_cases h : packaged = true ∧ mirror name = none
  · refine ⟨copy.stop, Function.update mirror name (copy.target content), ?_, ?_, ?_⟩
    · simp [mirrorFile, h.1, h.2]
    · exact fun other hother => Function.update_of_ne hother ..
    · exact Or.inl ⟨h.1, h.2, rfl, Function.update_self ..⟩
  · refine ⟨none, mirror, ?_, fun _ _ => rfl, Or.inr ⟨fun hp hm => h ⟨hp, hm⟩, rfl, rfl⟩⟩
    cases packaged with
    | false => rfl
    | true =>
        obtain ⟨there, hthere⟩ := Option.ne_none_iff_exists'.mp fun habsent => h ⟨rfl, habsent⟩
        simp [mirrorFile, hthere]

/-- Where no copy stops, something is mirrored. -/
theorem compatDir_leaves {mirror' : LibDir} (hmkdir : ops.mkdirRaises = false)
    (h : Leaves v ops mirror mirror')
    (hstops : ∀ name, Starts v ops mirror name → (ops.copy name).stop = none) :
    compatDir mirror' = some .runtimeLib := by
  have hthere : ∀ name, (mirror name = none → Starts v ops mirror name) →
      (mirror' name).isSome = true := by
    intro name hstarts
    by_cases hname : Starts v ops mirror name
    · rw [h.copied name hname, stop_none (hstops name hname)]
      rfl
    · rw [h.kept name hname]
      exact Option.isSome_iff_ne_none.mpr fun habsent => hname (hstarts habsent)
  have hsome : (mirror' .versioned).isSome = true ∨ (mirror' .unversioned).isSome = true := by
    rcases v.packaged with hv | hv
    · exact Or.inl (hthere .versioned fun habsent => ⟨hmkdir, hv, habsent⟩)
    · refine Or.inr (hthere .unversioned fun habsent => ⟨hmkdir, hv, habsent, fun hu hm => ?_⟩)
      exact hstops .versioned ⟨hmkdir, hu, hm⟩
  rw [compatDir, if_pos (by simpa using hsome)]

/-- How a call ends: a copy is killed, or the mirror is given up, or every
copy that is started goes through and the mirror is returned. -/
inductive Outcome (v : Version) (ops : Ops) (mirror : LibDir) :
    Option (Option Dir) × LibDir → Prop
  | killed {mirror' name} : Leaves v ops mirror mirror' → Starts v ops mirror name →
      (ops.copy name).stop = some .killed → Outcome v ops mirror (none, mirror')
  | abandoned {mirror'} : Leaves v ops mirror mirror' → Abandons v ops mirror →
      Outcome v ops mirror (some none, mirror')
  | mirrored {mirror'} : Leaves v ops mirror mirror' → ¬Abandons v ops mirror →
      (∀ name, Starts v ops mirror name → (ops.copy name).stop = none) →
      Outcome v ops mirror (some (some .runtimeLib), mirror')

/-- Both names are mirrored already. -/
theorem ensure_complete (hthere : ∀ name, mirror name ≠ none) :
    Outcome v ops mirror (ensureTallocCompat v.libDir ops mirror) := by
  have hnone : ∀ name, ¬Starts v ops mirror name :=
    fun name hstarts => hthere name (starts_absent hstarts)
  have hsome : ∀ name, (mirror name).isSome = true :=
    fun name => Option.isSome_iff_ne_none.mpr (hthere name)
  have heq : ensureTallocCompat v.libDir ops mirror = (some (some .runtimeLib), mirror) := by
    simp [ensureTallocCompat, compatDir, hsome, hthere]
  rw [heq]
  refine .mirrored (leaves_same hnone) ?_ fun name hstarts => (hnone name hstarts).elim
  rintro (⟨-, name, habsent⟩ | ⟨name, hstarts, -⟩)
  · exact hthere name habsent
  · exact hnone name hstarts

theorem outcome_mirrored {mirror' : LibDir} (hmkdir : ops.mkdirRaises = false)
    (h : Leaves v ops mirror mirror')
    (hstops : ∀ name, Starts v ops mirror name → (ops.copy name).stop = none) :
    Outcome v ops mirror (some (compatDir mirror'), mirror') := by
  rw [compatDir_leaves hmkdir h hstops]
  refine .mirrored h ?_ hstops
  rintro (⟨hraises, -⟩ | ⟨name, hstarts, hraised⟩)
  · rw [hmkdir] at hraises
    cases hraises
  · rw [hstops name hstarts] at hraised
    cases hraised

/-- The second copy, after a first one that has not stopped the call. -/
theorem ensure_second {mirror₁ : LibDir} (hmkdir : ops.mkdirRaises = false)
    (hreached : Starts v ops mirror .versioned → (ops.copy .versioned).stop = none)
    (hcopied : Starts v ops mirror .versioned →
      mirror₁ .versioned = (ops.copy .versioned).target v.content)
    (hkept : ¬Starts v ops mirror .versioned → mirror₁ .versioned = mirror .versioned)
    (hother : mirror₁ .unversioned = mirror .unversioned) :
    Outcome v ops mirror
      (match mirrorFile (ops.copy .unversioned) (v.libDir .versioned) .unversioned mirror₁ with
      | (some .killed, mirror) => (none, mirror)
      | (some .raised, mirror) => (some none, mirror)
      | (none, mirror) => (some (compatDir mirror), mirror)) := by
  obtain ⟨stop, mirror₂, hsecond, hsame, hcopy⟩ := mirrorFile_cases (ops.copy .unversioned)
    v.versioned v.content .unversioned mirror₁
  rw [hother] at hcopy
  rw [Version.libDir, hsecond]
  have hsame := hsame .versioned (by decide)
  rcases hcopy with ⟨hpackaged, habsent, rfl, htarget⟩ | ⟨hskip, rfl, rfl⟩
  · have hstarts : Starts v ops mirror .unversioned :=
      ⟨hmkdir, hpackaged, habsent, fun hu hm => hreached ⟨hmkdir, hu, hm⟩⟩
    have hleaves : Leaves v ops mirror mirror₂ := by
      refine ⟨fun name h => ?_, fun name h => ?_⟩
      · cases name with
        | unversioned => exact htarget
        | versioned => rw [hsame, hcopied h]
      · cases name with
        | unversioned => exact (h hstarts).elim
        | versioned => rw [hsame, hkept h]
    cases hstop : (ops.copy .unversioned).stop with
    | none =>
        refine outcome_mirrored hmkdir hleaves fun name h => ?_
        cases name with
        | unversioned => exact hstop
        | versioned => exact hreached h
    | some stop =>
        cases stop with
        | raised => exact .abandoned hleaves (Or.inr ⟨_, hstarts, hstop⟩)
        | killed => exact .killed hleaves hstarts hstop
  · have hstarts : ¬Starts v ops mirror .unversioned := fun h => hskip h.2.1 h.2.2.1
    refine outcome_mirrored hmkdir ⟨fun name h => ?_, fun name h => ?_⟩ fun name h => ?_
    all_goals cases name
    · exact (hstarts h).elim
    · exact hcopied h
    · exact hother
    · exact hkept h
    · exact (hstarts h).elim
    · exact hreached h

/-- The two copies, when nothing stops the call ahead of them. -/
theorem ensure_copies (hmkdir : ops.mkdirRaises = false) :
    Outcome v ops mirror
      (match mirrorFile (ops.copy .versioned) (v.libDir .unversioned) .versioned mirror with
      | (some .killed, mirror) => (none, mirror)
      | (some .raised, mirror) => (some none, mirror)
      | (none, mirror) =>
        match mirrorFile (ops.copy .unversioned) (v.libDir .versioned) .unversioned mirror with
        | (some .killed, mirror) => (none, mirror)
        | (some .raised, mirror) => (some none, mirror)
        | (none, mirror) => (some (compatDir mirror), mirror)) := by
  obtain ⟨stop, mirror₁, hfirst, hsame, hcopy⟩ := mirrorFile_cases (ops.copy .versioned)
    v.unversioned v.content .versioned mirror
  rw [show v.libDir .unversioned = if v.unversioned then some v.content else none from rfl, hfirst]
  have hsame := hsame .unversioned (by decide)
  rcases hcopy with ⟨hpackaged, habsent, rfl, htarget⟩ | ⟨hskip, rfl, rfl⟩
  · have hstarts : Starts v ops mirror .versioned := ⟨hmkdir, hpackaged, habsent⟩
    cases hstop : (ops.copy .versioned).stop with
    | none =>
        exact ensure_second hmkdir (fun _ => hstop) (fun _ => htarget)
          (fun h => (h hstarts).elim) hsame
    | some stop =>
        -- a first copy that stops leaves no second one
        have hleaves : Leaves v ops mirror mirror₁ := by
          refine ⟨fun name h => ?_, fun name h => ?_⟩
          · cases name with
            | versioned => exact htarget
            | unversioned =>
                rw [h.2.2.2 hpackaged habsent] at hstop
                cases hstop
          · cases name with
            | versioned => exact (h hstarts).elim
            | unversioned => exact hsame
        cases stop with
        | raised => exact .abandoned hleaves (Or.inr ⟨_, hstarts, hstop⟩)
        | killed => exact .killed hleaves hstarts hstop
  · have hstarts : ¬Starts v ops mirror₁ .versioned := fun h => hskip h.2.1 h.2.2
    exact ensure_second hmkdir (fun h => (hstarts h).elim) (fun h => (hstarts h).elim)
      (fun _ => rfl) rfl

/-- **One call of `_ensure_talloc_compat`.** -/
theorem ensure_outcome (v : Version) (ops : Ops) (mirror : LibDir) :
    Outcome v ops mirror (ensureTallocCompat v.libDir ops mirror) := by
  by_cases hmissing : ∃ name, mirror name = none
  · have hneeded : (((v.libDir .unversioned).isSome || (v.libDir .versioned).isSome)
        && ((mirror .versioned).isNone || (mirror .unversioned).isNone)) = true := by
      have hpackaged := v.packaged
      obtain ⟨name, habsent⟩ := hmissing
      cases name <;> simpa [Version.libDir, habsent] using hpackaged
    rw [ensureTallocCompat, if_pos hneeded]
    cases hmkdir : ops.mkdirRaises with
    | false => exact ensure_copies hmkdir
    | true =>
        have hnone : ∀ name, ¬Starts v ops mirror name := by
          intro name hstarts
          cases name <;>
            · rw [Starts, hmkdir] at hstarts
              cases hstarts.1
        exact .abandoned (leaves_same hnone) (Or.inl ⟨hmkdir, hmissing⟩)
  · exact ensure_complete fun name habsent => hmissing ⟨name, habsent⟩

/-- Every file of the mirror is what the version packages. -/
def UpToDate (v : Version) (mirror : LibDir) : Prop :=
  ∀ name content, mirror name = some content → content = v.content

/-- A call keeps a mirror up to date if the copies it starts leave no
incomplete file, and makes none up to date that was not. -/
theorem upToDate_leaves {mirror' : LibDir} (h : Leaves v ops mirror mirror') :
    UpToDate v mirror'
      ↔ UpToDate v mirror ∧ ∀ name, Starts v ops mirror name → (ops.copy name).Whole v.content := by
  constructor
  · refine fun hfresh => ⟨fun name content hthere => ?_, fun name hstarts part hpart => ?_⟩
    · have hkept := h.kept name fun hstarts => by
        rw [starts_absent hstarts] at hthere
        cases hthere
      exact hfresh name content (hkept.trans hthere)
    · exact hfresh name part ((h.copied name hstarts).trans hpart)
  · rintro ⟨hfresh, hwhole⟩ name content hthere
    by_cases hstarts : Starts v ops mirror name
    · exact hwhole name hstarts content ((h.copied name hstarts).symm.trans hthere)
    · exact hfresh name content ((h.kept name hstarts).symm.trans hthere)

theorem whole_of_stop {copy : Copy} {source : List UInt8} (h : copy.stop = none) :
    copy.Whole source := by
  intro part hpart
  rw [stop_none h] at hpart
  exact (Option.some.inj hpart).symm

end Ensure

/-! ## The phone -/

structure Phone where
  version : Version
  mirror : LibDir

inductive Action where
  | upgrade (v : Version)
  | prootEnv (cacheDir : String) (nativeLibraryDir : Option String) (ops : Ops)

namespace Phone

/-- The app's first installation. -/
def start (v : Version) : Phone := ⟨v, fun _ => none⟩

/-- A call of `proot_env`: its result, `none` if the process was killed. -/
def call (s : Phone) (cacheDir : String) (nativeLibraryDir : Option String) (ops : Ops) :
    Option ProotEnv × Phone :=
  let (env, mirror) :=
    prootEnv cacheDir (.android nativeLibraryDir) ops s.version.libDir s.mirror
  (env, { s with mirror := mirror })

def step (s : Phone) : Action → Option Phone
  | .upgrade v => some { s with version := v }
  | .prootEnv cacheDir nativeLibraryDir ops => some (s.call cacheDir nativeLibraryDir ops).2

def directory (s : Phone) : Dir → LibDir
  | .runtimeLib => s.mirror
  | .native => s.version.libDir
  -- not a directory of the phone
  | .neighbor => fun _ => none

/-- The linker takes the first directory of the path that has the name. -/
def resolve (s : Phone) (path : List Dir) (name : SoName) : Option (List UInt8) :=
  path.findSome? fun dir => s.directory dir name

/-- Every name that is found resolves to the complete content that the
current version packages. -/
def Current (s : Phone) (env : ProotEnv) : Prop :=
  ∀ name content, s.resolve (env.ldLibraryPath.getD []) name = some content →
    content = s.version.content

def Fresh (s : Phone) : Prop := UpToDate s.version s.mirror

/-- An upgrade with other content finds nothing mirrored, and no copy that
is started leaves an incomplete file. -/
def Careful (s : Phone) : Action → Prop
  | .upgrade v => (∀ name, s.mirror name = none) ∨ v.content = s.version.content
  | .prootEnv _ nativeLibraryDir ops => Finds nativeLibraryDir →
      ∀ name, Starts s.version ops s.mirror name → (ops.copy name).Whole s.version.content

/-- What can come of a call. -/
theorem call_cases (s : Phone) (cacheDir : String) (dir : Option String) (ops : Ops) :
    (¬Finds dir ∧ ∃ env, s.call cacheDir dir ops = (some env, s) ∧ env.ldLibraryPath = none)
    ∨ Finds dir ∧ ∃ env mirror, s.call cacheDir dir ops = (env, { s with mirror := mirror })
        ∧ Leaves s.version ops s.mirror mirror
        ∧ ∀ e, env = some e →
          (Abandons s.version ops s.mirror ∧ e.ldLibraryPath = some [.native])
          ∨ (¬Abandons s.version ops s.mirror
            ∧ (∀ name, Starts s.version ops s.mirror name → (ops.copy name).stop = none)
            ∧ e.ldLibraryPath = some [.runtimeLib, .native]) := by
  by_cases hfinds : Finds dir
  · refine Or.inr ⟨hfinds, ?_⟩
    have houtcome := ensure_outcome s.version ops s.mirror
    unfold Phone.call prootEnv
    have hnonempty : dir.getD "" ≠ "" := hfinds
    simp only [if_pos hnonempty]
    generalize ensureTallocCompat s.version.libDir ops s.mirror = out at houtcome
    cases houtcome with
    | killed hleaves => exact ⟨_, _, rfl, hleaves, nofun⟩
    | abandoned hleaves habandons =>
        refine ⟨_, _, rfl, hleaves, fun e he => Or.inl ⟨habandons, ?_⟩⟩
        obtain rfl := Option.some.inj he
        rfl
    | mirrored hleaves hkeeps hstops =>
        refine ⟨_, _, rfl, hleaves, fun e he => Or.inr ⟨hkeeps, hstops, ?_⟩⟩
        obtain rfl := Option.some.inj he
        rfl
  · refine Or.inl ⟨hfinds, ?_⟩
    unfold Phone.call prootEnv
    have hempty : ¬dir.getD "" ≠ "" := hfinds
    simp only [if_neg hempty]
    exact ⟨_, rfl, rfl⟩

/-- **One call** that returns resolves every name to the current version
if it finds no packaged directory, gives the mirror up, or has a fresh
mirror to start with, and otherwise not. -/
theorem call_current_iff {s s' : Phone} {cacheDir : String} {dir : Option String} {ops : Ops}
    {env : ProotEnv} (h : s.call cacheDir dir ops = (some env, s')) :
    s'.Current env ↔ ¬Finds dir ∨ Abandons s.version ops s.mirror ∨ s.Fresh := by
  rcases call_cases s cacheDir dir ops with
    ⟨hfinds, e, heq, hpath⟩ | ⟨hfinds, e, mirror, heq, hleaves, hresult⟩
  · obtain ⟨he, rfl⟩ := Prod.mk.injEq .. |>.mp (h.symm.trans heq)
    obtain rfl := Option.some.inj he
    refine iff_of_true (fun name content hresolve => ?_) (Or.inl hfinds)
    rw [hpath] at hresolve
    cases hresolve
  obtain ⟨rfl, rfl⟩ := Prod.mk.injEq .. |>.mp (h.symm.trans heq)
  rcases hresult env rfl with ⟨habandons, hpath⟩ | ⟨hkeeps, hstops, hpath⟩
  · refine iff_of_true (fun name content hresolve => ?_) (Or.inr (Or.inl habandons))
    rw [hpath] at hresolve
    exact libDir_content (by simpa [resolve, directory] using hresolve)
  · have hcurrent : ({ s with mirror := mirror } : Phone).Current env
        ↔ UpToDate s.version mirror := by
      constructor
      · intro hcurrent name content hthere
        refine hcurrent name content ?_
        rw [hpath]
        simp [resolve, directory, hthere]
      · intro hfresh name content hresolve
        rw [hpath] at hresolve
        cases hthere : mirror name with
        | some there =>
            obtain rfl : there = content := by simpa [resolve, directory, hthere] using hresolve
            exact hfresh name there hthere
        | none => exact libDir_content (by simpa [resolve, directory, hthere] using hresolve)
    rw [hcurrent, upToDate_leaves hleaves]
    constructor
    · exact fun hfresh => Or.inr (Or.inr hfresh.1)
    · rintro (hnot | habandons | hfresh)
      · exact (hnot hfinds).elim
      · exact (hkeeps habandons).elim
      · exact ⟨hfresh, fun name hstarts => whole_of_stop (hstops name hstarts)⟩

/-- **One step** keeps a fresh mirror fresh just when it is careful. -/
theorem fresh_step_iff {s s' : Phone} {a : Action} (hfresh : s.Fresh) (h : step s a = some s') :
    s'.Fresh ↔ s.Careful a := by
  cases a with
  | upgrade v =>
      obtain rfl := Option.some.inj h
      constructor
      · intro hnew
        by_contra hcareless
        obtain ⟨hmirrored, hcontent⟩ := not_or.mp hcareless
        obtain ⟨name, hthere⟩ := not_forall.mp hmirrored
        obtain ⟨content, hthere⟩ := Option.ne_none_iff_exists'.mp hthere
        exact hcontent ((hnew name content hthere).symm.trans (hfresh name content hthere))
      · rintro (habsent | hcontent) name content hthere
        · rw [habsent name] at hthere
          cases hthere
        · exact (hfresh name content hthere).trans hcontent.symm
  | prootEnv cacheDir dir ops =>
      obtain rfl := Option.some.inj h
      rcases call_cases s cacheDir dir ops with
        ⟨hfinds, e, heq, -⟩ | ⟨hfinds, e, mirror, heq, hleaves, -⟩
      · rw [heq]
        exact iff_of_true hfresh fun hfound => (hfinds hfound).elim
      · rw [heq]
        refine (upToDate_leaves hleaves).trans ⟨fun hwhole _ => hwhole.2, fun hcareful => ?_⟩
        exact ⟨hfresh, hcareful hfinds⟩

theorem fresh_start (v : Version) : (start v).Fresh := nofun

/-- **The talloc self-heal.** In a careful run every call that returns
resolves every name to the current version; a step out of such a run
leaves the mirror fresh only if it is careful; and at any point of any run
a call that returns is right just when it finds no packaged directory,
gives the mirror up, or starts with a fresh mirror. -/
theorem talloc_current_iff (v : Version) :
    (∀ s, Reach step Careful (start v) s → s.Fresh
      ∧ (∀ cacheDir dir ops env s', s.call cacheDir dir ops = (some env, s') → s'.Current env)
      ∧ ∀ a s', step s a = some s' → (s'.Fresh ↔ s.Careful a))
    ∧ ∀ s, Reach step Free (start v) s →
        ∀ cacheDir dir ops env s', s.call cacheDir dir ops = (some env, s') →
          (s'.Current env ↔ ¬Finds dir ∨ Abandons s.version ops s.mirror ∨ s.Fresh) := by
  refine ⟨fun s hrun => ?_, fun s _ _ _ _ _ _ hcall => call_current_iff hcall⟩
  have hfresh : s.Fresh := hrun.invariant Fresh (fresh_start v)
    fun _ _ _ hs hcareful hstep => (fresh_step_iff hs hstep).mpr hcareful
  exact ⟨hfresh, fun _ _ _ _ _ hcall => (call_current_iff hcall).mpr (Or.inr (Or.inr hfresh)),
    fun a s' hstep => fresh_step_iff hfresh hstep⟩

/-! ## An upgrade and a cut copy -/

/-- A version that packages `libtalloc.so` only. -/
def plainVersion (content : List UInt8) : Version := ⟨true, false, content, Or.inl rfl⟩

def bothVersion (content : List UInt8) : Version := ⟨true, true, content, Or.inl rfl⟩

def opsOf (copy : Copy) : Ops := ⟨false, fun _ => copy⟩

/-- After an upgrade `libtalloc.so.2` is still that of the old version, and
after a copy that raised it is the two bytes it got to. -/
theorem mirror_goes_stale :
    (∃ s env s', Reach step Free (start (plainVersion [1])) s
      ∧ s.call "/c" (some "/l") (opsOf .returned) = (some env, s')
      ∧ s'.resolve (env.ldLibraryPath.getD []) .versioned = some [1]
      ∧ s'.version.content = [2] ∧ ¬s'.Current env)
    ∧ ∃ s env s', Reach step Free (start (plainVersion [1, 2, 3])) s
      ∧ s.call "/c" (some "/l") (opsOf .returned) = (some env, s')
      ∧ s'.resolve (env.ldLibraryPath.getD []) .versioned = some [1, 2] ∧ ¬s'.Current env := by
  constructor
  · refine ⟨_, _, _, .next (a := .upgrade (plainVersion [2]))
      (.next (a := .prootEnv "/c" (some "/l") (opsOf .returned)) .start trivial rfl) trivial rfl,
      rfl, rfl, rfl, fun hcurrent => ?_⟩
    exact absurd (hcurrent .versioned [1] rfl) (by decide)
  · refine ⟨_, _, _, .next (a := .prootEnv "/c" (some "/l") (opsOf (.raised (some 2)))) .start
      trivial rfl, rfl, rfl, fun hcurrent => ?_⟩
    exact absurd (hcurrent .versioned [1, 2] rfl) (by decide)

/-- A call, an upgrade that keeps the content, and another call. -/
theorem upgrade_same_content : ∃ s env s', Reach step Careful (start (plainVersion [1])) s
    ∧ s.call "/c" (some "/l") (opsOf .returned) = (some env, s')
    ∧ s'.resolve (env.ldLibraryPath.getD []) .versioned = some [1] ∧ s'.Current env := by
  have hwhole : (start (plainVersion [1])).Careful (.prootEnv "/c" (some "/l") (opsOf .returned)) :=
    fun _ name _ => whole_of_stop rfl
  have hcalled : Reach step Careful (start (plainVersion [1]))
      ((start (plainVersion [1])).call "/c" (some "/l") (opsOf .returned)).2 :=
    .next .start hwhole rfl
  have hrun : Reach step Careful (start (plainVersion [1]))
      { ((start (plainVersion [1])).call "/c" (some "/l") (opsOf .returned)).2 with
        version := bothVersion [1] } :=
    .next (a := .upgrade (bothVersion [1])) hcalled (Or.inr rfl) rfl
  refine ⟨_, _, _, hrun, rfl, rfl, ?_⟩
  exact ((talloc_current_iff (plainVersion [1])).1 _ hrun).2.1 "/c" (some "/l")
    (opsOf .returned) _ _ rfl

end Phone

end TallocMirror

end Zmux
