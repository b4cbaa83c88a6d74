import Mathlib.Algebra.GroupWithZero.Nat
import Zmux.SystemCalls
import Zmux.TreeChanges
import Zmux.ZpipWheel

/-!
# The calls of the system `zpip.py` unpacks wheels with

`os.mkdir`, `Path.mkdir`, `open(.., "wb")`, `copyfileobj`, `copy2`,
`os.replace`, `os.chmod` and `unlink` on a tree of files, directories and
links, from `pathlib` paths: the system looks them up, links and `..` and
all. Any call may fail for a reason of its own (`System.fails`), and what a
copy has written by then stays.
-/

namespace Zmux

namespace WheelDisk

open PathTree

structure FileData where
  bytes : List UInt8
  mode : ℕ
deriving DecidableEq

abbrev Disk := PathTree String FileData

/-- An absolute `pathlib` path. -/
abbrev FsPath := List (Hop String)

inductive OSError where
  /-- `FileNotFoundError`. -/
  | fileNotFound
  /-- Any other. -/
  | refused
deriving DecidableEq

inductive Raised where
  | os (e : OSError)
  | value (e : Error)
  /-- "Wheel attempted to escape staging". -/
  | escapesStaging

/-- The local is `committed` of `install`. -/
abbrev Session := CallState Disk (List String)

structure System where
  /-- How many links a path may have. -/
  limit : ℕ
  fails : ℕ → Bool
  /-- How much of a copy is written when it fails. -/
  copied : ℕ → ℕ
  newMode : ℕ

def System.faults (sys : System) : Faults OSError Raised := ⟨sys.fails, .refused, .os⟩

abbrev Call := EStateM Raised Session

variable (sys : System)

/-! ## Paths -/

def hops (raw : String) : FsPath :=
  (pathParts raw).map fun name => if name = ".." then .up else .into name

/-- `base / raw`. -/
def join (base : FsPath) (raw : String) : FsPath :=
  if isAbsolute raw then hops raw else base ++ hops raw

/-- `Path.parents`. -/
def parents (path : List String) : List (List String) :=
  path.inits.filter fun front => decide (front ≠ path)

/-- The entry a path names, which may be a link. -/
def slot (path : FsPath) (d : Disk) : Option (List String) :=
  match path.getLast? with
  | some (.into name) => (d.resolve sys.limit [] path.dropLast).map fun dir => dir ++ [name]
  | _ => none

/-! ## Looking -/

def lexists (d : Disk) (path : Option (List String)) : Bool :=
  match path with
  | some p => (d.entry p).isSome
  | none => false

/-- `Path.exists`. -/
def exists? (path : FsPath) (d : Disk) : Bool := lexists d (d.resolve sys.limit [] path)

def isDir (path : FsPath) (d : Disk) : Bool :=
  match d.resolve sys.limit [] path with
  | some p => isDirAt d p
  | none => false

def isFile (path : FsPath) (d : Disk) : Bool := exists? sys path d && !isDir sys path d

abbrev look {α : Type} (f : Disk → Except OSError α) : Call α := sys.faults.look f

abbrev stat (f : Disk → Bool) : Call Bool := look sys fun d => .ok (f d)

/-! ## Changing -/

abbrev call (f : Disk → Except OSError Disk) : Call PUnit := sys.faults.call f

/-- `os.mkdir`. -/
def mkdir (path : FsPath) (d : Disk) : Except OSError Disk :=
  match slot sys path d with
  | none => .error .refused
  | some p =>
    if (d.entry p).isSome then .error .refused
    else if h : d.Puts p then .ok (d.put p .dir h)
    else if (d.entry p.dropLast).isNone then .error .fileNotFound
    else .error .refused

/-- `open(.., "wb")`: a file that is there is emptied. -/
def openWb (path : FsPath) (d : Disk) : Except OSError Disk :=
  match d.resolve sys.limit [] path with
  | none => .error .refused
  | some p =>
    if h : d.Puts p then
      .ok (d.put p (.file ⟨[], match d.entry p with
        | some (.file f) => f.mode
        | _ => sys.newMode⟩) h)
    else .error .refused

/-- What is there is a file, and changes. -/
def update (path : FsPath) (change : FileData → FileData) (d : Disk) : Except OSError Disk :=
  match d.resolve sys.limit [] path with
  | none => .error .refused
  | some p =>
    match d.entry p with
    | some (.file f) =>
      if h : d.Puts p then .ok (d.put p (.file (change f)) h) else .error .refused
    | some _ => .ok d
    | none => .error .fileNotFound

/-- `shutil.copyfileobj` into the file just opened. -/
def copyfileobj (path : FsPath) (bytes : List UInt8) : Call PUnit := do
  let s ← get
  sys.faults.write (update sys path fun f => { f with bytes := bytes })
    (update sys path fun f => { f with bytes := bytes.take (sys.copied s.calls) })

/-- `os.chmod`. The mode of a directory is not kept. -/
def chmod (path : FsPath) (mode : ℕ) : Disk → Except OSError Disk :=
  update sys path fun f => { f with mode := mode }

/-- `os.replace`. A directory that is not empty makes the call fail. -/
def replace (src dst : FsPath) (d : Disk) : Except OSError Disk :=
  match slot sys src d, slot sys dst d with
  | some p, some r =>
    match d.entry p with
    | none => .error .fileNotFound
    | some e =>
      if p = r then .ok d
      else if h : d.Relocates p r then
        if !isDirAt d r.dropLast then .error .fileNotFound
        else if e.isDir = isDirAt d r ∨ (d.entry r).isNone then .ok (d.relocate p r h)
        else .error .refused
      else .error .refused
  | _, _ => .error .refused

def unlink (path : FsPath) (d : Disk) : Except OSError Disk :=
  match slot sys path d with
  | none => .error .refused
  | some p =>
    match d.entry p with
    | none => .error .fileNotFound
    | some .dir => .error .refused
    | some _ => .ok (d.erase p)

/-! ## `Path.mkdir` -/

/-- `except OSError: if not exist_ok or not self.is_dir(): raise`. -/
def present (existOk : Bool) (path : FsPath) (e : Raised) : Call PUnit := do
  if existOk then
    if ← stat sys (isDir sys path) then pure ⟨⟩ else throw e
  else throw e

/-- Without `parents`. -/
def mkdirOnce (existOk : Bool) (path : FsPath) : Call PUnit :=
  tryCatch (call sys (mkdir sys path)) fun e =>
    match e with
    | .os .fileNotFound => throw e
    | _ => present sys existOk path e

/-- On the path from its last hop backwards. -/
def mkdirBack (existOk : Bool) : FsPath → Call PUnit
  | [] => mkdirOnce sys existOk []
  | hop :: above =>
    tryCatch (call sys (mkdir sys (hop :: above).reverse)) fun e =>
      match e with
      | .os .fileNotFound => do
        mkdirBack true above
        mkdirOnce sys existOk (hop :: above).reverse
      | _ => present sys existOk (hop :: above).reverse e

/-- `mkdir(parents=True, exist_ok=..)`. -/
def mkdirParents (existOk : Bool) (path : FsPath) : Call PUnit :=
  mkdirBack sys existOk path.reverse

/-! ## `shutil.copy2` -/

def readFile (path : FsPath) (d : Disk) : Except OSError FileData :=
  match d.resolve sys.limit [] path with
  | none => .error .refused
  | some p =>
    match d.entry p with
    | some (.file f) => .ok f
    | some _ => .error .refused
    | none => .error .fileNotFound

/-- Into a directory, under the name of the source. -/
def copy2 (src dst : FsPath) : Call PUnit := do
  let inside ← stat sys (isDir sys dst)
  let dst := if inside then dst ++ src.getLast?.toList else dst
  let f ← look sys (readFile sys src)
  call sys (openWb sys dst)
  copyfileobj sys dst f.bytes
  call sys (chmod sys dst f.mode)

/-! ## What a call does -/

section Effects

variable {sys} {d d' : Disk} {path src dst : FsPath} {p root : List String}

theorem slot_snoc (path : FsPath) (name : String) (d : Disk) :
    slot sys (path ++ [.into name]) d
      = (d.resolve sys.limit [] path).map fun dir => dir ++ [name] := by
  rw [slot, List.getLast?_concat, List.dropLast_concat]

theorem mkdir_ok (h : mkdir sys path d = .ok d') :
    ∃ p, slot sys path d = some p ∧ d.entry p = none ∧ ∃ hp : d.Puts p, d' = d.put p .dir hp := by
  rw [mkdir] at h
  split at h
  · cases h
  · rename_i p hslot
    split_ifs at h with hsome hp
    refine ⟨p, hslot, Option.not_isSome_iff_eq_none.mp hsome, hp, ?_⟩
    exact (Except.ok.inj h).symm

theorem mkdir_fileNotFound (h : mkdir sys path d = .error .fileNotFound) :
    ∃ p, slot sys path d = some p ∧ d.entry p.dropLast = none := by
  rw [mkdir] at h
  split at h
  · cases h
  · rename_i p hslot
    refine ⟨p, hslot, ?_⟩
    split_ifs at h with hsome hp hnone
    · cases h
    · exact Option.isNone_iff_eq_none.mp hnone
    · cases h

theorem openWb_ok (h : openWb sys path d = .ok d') :
    ∃ p, d.resolve sys.limit [] path = some p
      ∧ ∃ (f : FileData) (hp : d.Puts p), d' = d.put p (.file f) hp := by
  rw [openWb] at h
  split at h
  · cases h
  · rename_i p hp
    split_ifs at h with hputs
    exact ⟨p, hp, _, hputs, (Except.ok.inj h).symm⟩

theorem update_ok {change : FileData → FileData} (h : update sys path change d = .ok d') :
    d' = d ∨ ∃ p f, d.resolve sys.limit [] path = some p ∧ d.entry p = some (.file f)
      ∧ ∃ hp : d.Puts p, d' = d.put p (.file (change f)) hp := by
  rw [update] at h
  split at h
  · cases h
  · rename_i p hp
    split at h
    · rename_i f hf
      split_ifs at h with hputs
      exact Or.inr ⟨p, f, hp, hf, hputs, (Except.ok.inj h).symm⟩
    · exact Or.inl (Except.ok.inj h).symm
    · cases h

theorem replace_ok (h : replace sys src dst d = .ok d') :
    ∃ p r, slot sys src d = some p ∧ slot sys dst d = some r
      ∧ (d' = d ∨ ∃ hmove : d.Relocates p r, d.entry r.dropLast = some .dir
        ∧ d' = d.relocate p r hmove) := by
  rw [replace] at h
  split at h
  · rename_i p r hp hr
    refine ⟨p, r, hp, hr, ?_⟩
    split at h
    · cases h
    · split_ifs at h with heq hmove hdir hkind
      · exact Or.inl (Except.ok.inj h).symm
      · have hdir' : isDirAt d r.dropLast = true := by simpa using hdir
        exact Or.inr ⟨hmove, isDirAt_iff.mp hdir', (Except.ok.inj h).symm⟩
  · cases h

theorem unlink_ok (h : unlink sys path d = .ok d') :
    ∃ p, slot sys path d = some p ∧ d' = d.erase p := by
  rw [unlink] at h
  split at h
  · cases h
  · rename_i p hp
    split at h
    · cases h
    · cases h
    · exact ⟨p, hp, (Except.ok.inj h).symm⟩

/-- Where a directory is, none is made. -/
theorem mkdir_refused (hpath : d.resolve sys.limit [] path = some root)
    (hdir : d.entry root = some .dir) : mkdir sys path d = .error .refused := by
  rw [mkdir]
  split
  · rfl
  · rename_i p hp
    rw [if_pos]
    rcases List.eq_nil_or_concat path with rfl | ⟨front, hop, rfl⟩
    · cases hp
    · rw [List.concat_eq_append] at hp hpath
      cases hop with
      | up =>
          rw [slot, List.getLast?_concat] at hp
          cases hp
      | into name =>
          rw [slot_snoc] at hp
          obtain ⟨q, limit, -, hq, hlast⟩ := resolve_append hpath
          rw [hq] at hp
          obtain rfl := Option.some.inj hp
          rcases resolve_last (direct_resolve (direct_nil d) hq) hlast with
            ⟨-, ⟨e, he, -⟩ | ⟨rfl, -⟩⟩
          · rw [he]
            rfl
          · rw [hdir]
            rfl

end Effects

/-! ## Below a directory -/

/-- The path resolves to a directory below which there is no link. -/
structure Rooted (limit : ℕ) (base : FsPath) (root : List String) (d : Disk) : Prop where
  resolves : d.resolve limit [] base = some root
  dir : d.entry root = some .dir
  linkless : Linkless (below root) d

namespace Rooted

variable {sys} {d d' : Disk} {base : FsPath} {root : List String} {region : Set (List String)}

theorem locate (h : Rooted sys.limit base root d) (names : List String) :
    d.resolve sys.limit [] (base ++ names.map .into) = some (root ++ names) :=
  resolve_append_names h.resolves (h.linkless.down names)

theorem slot (h : Rooted sys.limit base root d) {names : List String} (hne : names ≠ []) :
    slot sys (base ++ names.map .into) d = some (root ++ names) := by
  rcases List.eq_nil_or_concat names with rfl | ⟨front, name, rfl⟩
  · exact absurd rfl hne
  · rw [List.concat_eq_append, List.map_append, ← List.append_assoc, List.map_singleton, slot_snoc,
      h.locate, ← List.append_assoc]
    rfl

/-- What it resolves to is a path like any other. -/
theorem direct (h : Rooted sys.limit base root d) : Rooted sys.limit (root.map .into) root d where
  resolves := resolve_into (direct_resolve (direct_nil d) h.resolves) sys.limit
  dir := h.dir
  linkless := h.linkless

theorem confined (h : Rooted sys.limit base root d) (hc : Confined region d d')
    (hdir : d'.entry root = some .dir) : Rooted sys.limit base root d' where
  resolves := (hc.resolve sys.limit [] base).trans h.resolves
  dir := hdir
  linkless := hc.linkless h.linkless

end Rooted

/-! ## What calls leave -/

section Calls

variable {sys} {I I' : Session → Prop} {path base : FsPath} {root : List String}

theorem stat_keeps (hI : Calm I) (f : Disk → Bool) : Keeps I (stat sys f) :=
  Faults.look_keeps hI _

theorem copyfileobj_keeps (hI : Calm I) {bytes : List UInt8}
    (h : ∀ s d n change, I s → update sys path change s.disk = .ok d →
      I { s with disk := d, calls := n }) : Keeps I (copyfileobj sys path bytes) := by
  refine Triple.get_bind fun s hs => ?_
  have hwrite : Keeps I (sys.faults.write (update sys path fun f => { f with bytes := bytes })
      (update sys path fun f => { f with bytes := bytes.take (sys.copied s.calls) })) :=
    Faults.write_keeps hI (fun s d n hs hok => h s d n _ hs hok) fun s d n hs hok =>
      h s d n _ hs hok
  exact hwrite.conseq (fun s' hs' => hs' ▸ hs) (fun _ _ hs => hs) fun _ _ hs => hs

theorem present_keeps (hI : Calm I) (existOk : Bool) (e : Raised) :
    Keeps I (present sys existOk path e) := by
  refine Triple.ite (fun _ => ?_) fun _ => Triple.throw fun _ hs => hs
  exact Triple.bind (stat_keeps hI _) fun isDir =>
    Triple.ite (fun _ => Triple.pure fun _ hs => hs) fun _ => Triple.throw fun _ hs => hs

theorem mkdirOnce_keeps (hI : Calm I) {existOk : Bool}
    (h : ∀ s d n, I s → mkdir sys path s.disk = .ok d → I { s with disk := d, calls := n }) :
    Keeps I (mkdirOnce sys existOk path) := by
  refine Triple.tryCatch (Faults.call_keeps hI h) fun e => ?_
  split
  · exact Triple.throw fun _ hs => hs
  · exact present_keeps hI existOk e

/-- Nothing is made where there is a directory. -/
theorem mkdirBack_dir (hI : Calm I) {existOk : Bool} (h : ∀ s, I s → ∃ root,
    s.disk.resolve sys.limit [] path = some root ∧ s.disk.entry root = some .dir) :
    Keeps I (mkdirBack sys existOk path.reverse) := by
  have hrefused : ∀ s, I s → mkdir sys path s.disk = .error .refused := fun s hs => by
    obtain ⟨root, hroot, hdir⟩ := h s hs
    exact mkdir_refused hroot hdir
  have hno : ∀ s d n, I s → mkdir sys path s.disk = .ok d → I { s with disk := d, calls := n } :=
    fun s d n hs hok => by
      rw [hrefused s hs] at hok
      cases hok
  cases hback : path.reverse with
  | nil =>
      rw [List.reverse_eq_nil_iff.mp hback] at hno
      exact mkdirOnce_keeps hI hno
  | cons hop above =>
      have hpath : (hop :: above).reverse = path := by rw [← hback, List.reverse_reverse]
      rw [mkdirBack, hpath]
      refine Triple.tryCatch (Faults.call_triple hI hno) fun e => ?_
      split
      · rintro s ⟨hs, hraise | ⟨e', hraise, hfound⟩⟩
        · cases hraise
        · rw [hrefused _ hs] at hfound
          obtain rfl := Except.error.inj hfound
          cases hraise
      · exact (present_keeps hI existOk e).conseq (fun _ hs => hs.1) (fun _ _ hs => hs)
          fun _ _ hs => hs

/-- Below a directory, only directories are made, and only below it. -/
theorem mkdirParents_keeps (hI : Calm I) (hroot : ∀ s, I s → Rooted sys.limit base root s.disk)
    (hmake : ∀ s p n (hp : s.disk.Puts p), I s → p ∈ below root → s.disk.entry p = none →
      I { s with disk := s.disk.put p .dir hp, calls := n })
    (names : List String) (existOk : Bool) :
    Keeps I (mkdirParents sys existOk (base ++ names.map .into)) := by
  rw [mkdirParents]
  induction names using List.reverseRecOn generalizing existOk with
  | nil =>
      rw [List.map_nil, List.append_nil]
      exact mkdirBack_dir hI fun s hs => ⟨root, (hroot s hs).resolves, (hroot s hs).dir⟩
  | append_singleton names name ih =>
      have hone : ∀ s d n, I s → mkdir sys (base ++ (names ++ [name]).map .into) s.disk = .ok d →
          I { s with disk := d, calls := n } := by
        intro s d n hs hok
        obtain ⟨p, hslot, hnone, hp, rfl⟩ := mkdir_ok hok
        have hne : names ++ [name] ≠ [] :=
          List.append_ne_nil_of_right_ne_nil _ (List.cons_ne_nil _ _)
        obtain rfl := Option.some.inj (((hroot s hs).slot hne).symm.trans hslot)
        exact hmake s _ n hp hs (mem_below hne) hnone
      have hback : (base ++ (names ++ [name]).map Hop.into).reverse
          = .into name :: (base ++ names.map Hop.into).reverse := by simp
      rw [hback, mkdirBack]
      have hpath : (Hop.into name :: (base ++ names.map Hop.into).reverse).reverse
          = base ++ (names ++ [name]).map Hop.into := by rw [← hback, List.reverse_reverse]
      rw [hpath]
      refine Triple.tryCatch (Faults.call_keeps hI hone) fun e => ?_
      split
      · exact Triple.bind (ih true) fun _ => mkdirOnce_keeps hI hone
      · exact present_keeps hI existOk e

end Calls

end WheelDisk

end Zmux
