import Zmux.PathTree

/-!
# `rm` and `mv`

`_path`, `_cmd_rm` and `_cmd_mv` of `python_shell.py`, with what they use
of `pathlib` and `shutil`, on a tree of files, directories and links.

`_path` resolves the whole operand. So where the operand is a link, the
commands act on what it points to, and on the named entry only where it
is none (`named_entry_iff`).
-/

namespace Zmux

namespace FileCommands

abbrev Word := List Char

inductive FileError where
  | missingOperand
  | invalidOption (shown : Word)
  | usage
  | symlinkLoop
  | isADirectory
  | fileNotFound
  | notADirectory
  /-- An operation of `shutil` raises. -/
  | refused
deriving DecidableEq

/-- What the commands know of the session and the system. -/
structure Context where
  cwd : List Word
  expandUser : Word → Word
  /-- How many links a path may have. -/
  limit : ℕ

/-- The parts of a `pathlib` path. -/
def parts (text : Word) : List Word :=
  (text.splitOn '/').filter fun name => decide (name ≠ [] ∧ name ≠ ['.'])

def hop (name : Word) : Hop Word := if name = ['.', '.'] then .up else .into name

variable {β : Type*}

namespace Context

variable (context : Context)

/-- `p if p.is_absolute() else self.cwd / p`. -/
def operand (value : Word) : List (Hop Word) :=
  let value := context.expandUser value
  let hops := (parts value).map hop
  if value.head? = some '/' then hops else context.cwd.map .into ++ hops

/-- `_path`. -/
def path (t : PathTree Word β) (value : Word) : Except FileError (List Word) :=
  match t.resolve context.limit [] (context.operand value) with
  | some path => .ok path
  | none => .error .symlinkLoop

/-- `os.path.exists`. -/
def exists? (t : PathTree Word β) (path : List Word) : Bool :=
  match t.resolve context.limit [] (path.map .into) with
  | some path => (t.entry path).isSome
  | none => false

end Context

/-! ## `rm` -/

structure RmFlags where
  recursive : Bool
  force : Bool
deriving DecidableEq

/-- An argument that is an option. -/
def isOption (arg : Word) : Bool := arg.head? = some '-'

/-- `_RM_CLUSTER_LETTERS`. -/
def rmClusterLetters : List Char := ['r', 'R', 'f']

def parseFlag (flags : RmFlags) (arg : Word) : Except FileError RmFlags :=
  if isOption arg = false then .ok flags
  else if arg = "--recursive".toList then .ok { flags with recursive := true }
  else if arg = "--force".toList then .ok { flags with force := true }
  else if arg.tail ≠ [] ∧ (arg.tail.all fun c => rmClusterLetters.contains c) = true then
    .ok
      { recursive := flags.recursive || arg.contains 'r' || arg.contains 'R'
        force := flags.force || arg.contains 'f' }
  else .error (.invalidOption (if "--".toList.isPrefixOf arg then arg else arg.tail))

/-- Something on the way is a file. -/
def throughFile (t : PathTree Word β) (path : List Word) : Bool :=
  path.inits.any fun front =>
    match t.entry front with
    | some (.file _) => decide (front ≠ path)
    | _ => false

/-- One operand of `_cmd_rm`. -/
def removeOne (context : Context) (flags : RmFlags) (t : PathTree Word β) (value : Word) :
    Except FileError (PathTree Word β) :=
  match context.path t value with
  | .error error => .error error
  | .ok path =>
    match t.entry path with
    | some .dir =>
      if flags.recursive = false then .error .isADirectory
      -- `shutil.rmtree`
      else if path = [] then .error .refused
      else .ok (t.erase path)
    | some _ => .ok (t.erase path)
    | none =>
      if throughFile t path then .error .notADirectory
      else if flags.force then .ok t
      else .error .fileNotFound

def operands (args : List Word) : List Word := args.filter fun arg => !isOption arg

def cmdRm (context : Context) (t : PathTree Word β) (args : List Word) :
    Except FileError (PathTree Word β) :=
  match args.foldlM parseFlag ⟨false, false⟩ with
  | .error error => .error error
  | .ok flags =>
    if operands args = [] then .error .missingOperand
    else (operands args).foldlM (removeOne context flags) t

/-! ## `mv` -/

/-- `os.rename`, and what `shutil.move` does when it fails: a directory is
copied to where directories are missing on the way. -/
def rename (t : PathTree Word β) (src real : List Word) : Except FileError (PathTree Word β) :=
  match t.entry src with
  | none => .error .fileNotFound
  | some e =>
    if src = real then .ok t
    else if h : t.Relocates src real then
      match e, t.entry real with
      | .dir, none => .ok (t.relocate src real h)
      | .dir, some _ => .error .refused
      | _, some .dir => .error .refused
      | _, _ =>
        match t.entry real.dropLast with
        | some .dir => .ok (t.relocate src real h)
        | _ => .error .refused
    else .error .refused

/-- `shutil.move`. -/
def move (context : Context) (t : PathTree Word β) (src dst : List Word) :
    Except FileError (PathTree Word β) :=
  match t.entry dst with
  | some .dir =>
    if src = [] then .error .refused
    else if src = dst then .ok t
    else
      let real := dst ++ [src.getLastD []]
      if context.exists? t real then .error .refused else rename t src real
  | _ => rename t src dst

def cmdMv (context : Context) (t : PathTree Word β) (args : List Word) :
    Except FileError (PathTree Word β) :=
  match args with
  | [source, dest] =>
    match context.path t source, context.path t dest with
    | .ok src, .ok dst => move context t src dst
    | .error error, _ => .error error
    | .ok _, .error error => .error error
  | _ => .error .usage

/-! ## The named entry -/

/-- The entry that an operand names: its last name is not followed. -/
def Context.named (context : Context) (t : PathTree Word β) (value : Word) : Option (List Word) :=
  match (context.operand value).getLast? with
  | some (.into name) =>
    (t.resolve context.limit [] (context.operand value).dropLast).map (· ++ [name])
  | _ => t.resolve context.limit [] (context.operand value)

def IsLink (t : PathTree Word β) (p : List Word) : Prop :=
  ∃ e, t.entry p = some e ∧ e.isLink = true

/-- The entry, and what is below it, is gone, and nothing else. -/
structure Removes (flags : RmFlags) (t t' : PathTree Word β) (p : List Word) : Prop where
  flagged : t.entry p = some .dir → flags.recursive = true
  gone : ∀ q, p <+: q → t'.entry q = none
  kept : ∀ q, ¬p <+: q → t'.entry q = t.entry q

/-- Every operand removes the entry it names when its turn comes. -/
def RemovesNamed (context : Context) (flags : RmFlags) : PathTree Word β → List Word → Prop
  | _, [] => True
  | t, value :: values => ∀ t', removeOne context flags t value = .ok t' →
    (∃ p, context.named t value = some p ∧ Removes flags t t' p)
      ∧ RemovesNamed context flags t' values

/-- No operand names a link, when the entries are removed one by one. -/
def NoLinks (context : Context) : PathTree Word β → List Word → Prop
  | _, [] => True
  | t, value :: values => ∀ p, context.named t value = some p →
    ¬IsLink t p ∧ NoLinks context (t.erase p) values

/-- Where the named entry goes: into a directory, if the destination is
one. -/
def destination (t : PathTree Word β) (p dst : List Word) : List Word :=
  match t.entry dst with
  | some .dir => if p = dst then dst else dst ++ [p.getLastD []]
  | _ => dst

/-- The named source entry is at the destination, and nothing else is
moved. -/
def MovesNamed (context : Context) (t t' : PathTree Word β) (source dest : Word) : Prop :=
  ∃ p dst, context.named t source = some p ∧ context.path t dest = .ok dst
    ∧ ∀ q, t'.entry q = t.relocated p (destination t p dst) q

/-- The source is no link, or a link that is at the destination already and
points to it. -/
def NoLinkMoved (context : Context) (t : PathTree Word β) (source dest : Word) : Prop :=
  ∀ p dst, context.named t source = some p → context.path t dest = .ok dst →
    ¬IsLink t p ∨ destination t p dst = p ∧ context.path t source = .ok dst

variable {context : Context} {t t' : PathTree Word β} {value : Word} {p r : List Word}

theorem path_eq_ok (h : context.path t value = .ok r) :
    t.resolve context.limit [] (context.operand value) = some r := by
  rw [Context.path] at h
  split at h
  · rename_i hresolve
    rw [hresolve, Except.ok.inj h]
  · cases h

theorem direct_path (h : context.path t value = .ok r) : t.Direct r :=
  PathTree.direct_resolve (PathTree.direct_nil t) (path_eq_ok h)

/-- The path of an operand is the named entry, or what the link there
resolves to. -/
theorem named_of_path (h : context.path t value = .ok r) :
    ∃ p, context.named t value = some p ∧
      (r = p ∧ ¬IsLink t p ∨ IsLink t p ∧ ∃ front name limit, p = front ++ [name] ∧ t.Direct front
        ∧ limit ≤ context.limit ∧ t.resolve limit front [.into name] = some r) := by
  have hr := path_eq_ok h
  have hdirect := direct_path h
  have hnolink : ¬IsLink t r := by
    rintro ⟨e, he, hlink⟩
    cases hlink.symm.trans (hdirect r e List.prefix_rfl he)
  rw [Context.named]
  split
  · rename_i name hlast
    obtain ⟨hops, hhops⟩ := List.getLast?_eq_some_iff.mp hlast
    rw [hhops] at hr
    rw [hhops, List.dropLast_concat]
    obtain ⟨front, limit, hle, hfront, hlast⟩ := PathTree.resolve_append hr
    have hdirectFront := PathTree.direct_resolve (PathTree.direct_nil t) hfront
    refine ⟨front ++ [name], by rw [hfront]; rfl, ?_⟩
    rcases (PathTree.resolve_last hdirectFront hlast).2 with hlink | ⟨rfl, -⟩
    · exact .inr ⟨hlink, front, name, limit, rfl, hdirectFront, hle, hlast⟩
    · exact .inl ⟨rfl, hnolink⟩
  · exact ⟨r, hr, .inl ⟨rfl, hnolink⟩⟩

/-! ## `rm` removes the named entries -/

/-- What an operand leaves when it does not fail. -/
theorem removeOne_eq {flags : RmFlags} (h : removeOne context flags t value = .ok t') :
    ∃ r, context.path t value = .ok r ∧ r ≠ [] ∧ t' = t.erase r
      ∧ (t.entry r = some .dir → flags.recursive = true) := by
  rw [removeOne] at h
  split at h
  · cases h
  rename_i r hr
  refine ⟨r, hr, ?_⟩
  split at h
  · rename_i hdir
    split_ifs at h with hflag hroot
    exact ⟨hroot, (Except.ok.inj h).symm, fun _ => eq_true_of_ne_false hflag⟩
  · rename_i e hnodir he
    have hroot : r ≠ [] := by
      rintro rfl
      exact hnodir (Option.some.inj (he.symm.trans t.root))
    exact ⟨hroot, (Except.ok.inj h).symm, fun hdir =>
      (hnodir (Option.some.inj (he.symm.trans hdir))).elim⟩
  · rename_i hnone
    have hroot : r ≠ [] := by
      rintro rfl
      cases hnone.symm.trans t.root
    split_ifs at h
    refine ⟨hroot, ?_, fun hdir => by cases hnone.symm.trans hdir⟩
    obtain rfl := Except.ok.inj h
    ext1
    funext q
    rw [PathTree.entry_erase t hroot]
    split_ifs with hq
    · by_contra hsome
      by_cases heq : r = q
      · exact hsome (heq ▸ hnone)
      · cases hnone.symm.trans (PathTree.entry_above hsome hq heq)
    · rfl

theorem removes_erase {flags : RmFlags} (hr : r ≠ [])
    (hflag : t.entry r = some .dir → flags.recursive = true) : Removes flags t (t.erase r) r where
  flagged := hflag
  gone q hq := by rw [PathTree.entry_erase t hr, if_pos hq]
  kept q hq := by rw [PathTree.entry_erase t hr, if_neg hq]

/-- One operand acts on the entry it names exactly when that is no link. -/
theorem removes_named_iff {flags : RmFlags} (hp : context.named t value = some p)
    (h : removeOne context flags t value = .ok t') :
    Removes flags t t' p ↔ ¬IsLink t p := by
  obtain ⟨r, hr, hroot, rfl, hflag⟩ := removeOne_eq h
  obtain ⟨p', hp', hcase⟩ := named_of_path hr
  obtain rfl := Option.some.inj (hp.symm.trans hp')
  constructor
  · rintro hremoves ⟨e, he, hlink⟩
    rcases hcase with ⟨rfl, hnolink⟩ | ⟨-, -⟩
    · exact hnolink ⟨e, he, hlink⟩
    · -- What the link points to is gone, but it is not below the link.
      have hbelow : r <+: p := by
        by_contra hno
        have hgone := hremoves.gone p List.prefix_rfl
        rw [PathTree.entry_erase t hroot, if_neg hno, he] at hgone
        cases hgone
      have hne : r ≠ p := by
        rintro rfl
        cases hlink.symm.trans (direct_path hr r e List.prefix_rfl he)
      have hdir := PathTree.entry_above (by rw [he]; nofun) hbelow hne
      have hkept := hremoves.kept r fun hpr =>
        hne (List.IsPrefix.eq_of_length_le hbelow hpr.length_le)
      rw [PathTree.entry_erase t hroot, if_pos List.prefix_rfl] at hkept
      cases hkept.trans hdir
  · intro hnolink
    rcases hcase with ⟨rfl, -⟩ | ⟨hlink, -⟩
    · exact removes_erase hroot hflag
    · exact absurd hlink hnolink

theorem removesNamed_iff {flags : RmFlags} {values : List Word} :
    ∀ {t t' : PathTree Word β}, values.foldlM (removeOne context flags) t = .ok t' →
      (RemovesNamed context flags t values ↔ NoLinks context t values) := by
  induction values with
  | nil => exact fun _ => Iff.rfl
  | cons value values ih =>
      intro t t' h
      rw [List.foldlM_cons] at h
      cases hone : removeOne context flags t value with
      | error error => rw [hone] at h; cases h
      | ok t₁ =>
          rw [hone] at h
          have hrest := ih h
          obtain ⟨r, hr, -, rfl, -⟩ := removeOne_eq hone
          obtain ⟨p, hp, hcase⟩ := named_of_path hr
          rw [RemovesNamed, NoLinks]
          constructor
          · intro hremoves p' hp'
            obtain rfl := Option.some.inj (hp.symm.trans hp')
            obtain ⟨⟨p', hp', hremoved⟩, hlater⟩ := hremoves _ hone
            obtain rfl := Option.some.inj (hp.symm.trans hp')
            have hnolink := (removes_named_iff hp hone).mp hremoved
            obtain rfl := hcase.resolve_right (fun h => hnolink h.1) |>.1
            exact ⟨hnolink, hrest.mp hlater⟩
          · intro hnolinks t₁ ht₁
            obtain ⟨hnolink, hlater⟩ := hnolinks p hp
            obtain rfl := Except.ok.inj (hone.symm.trans ht₁)
            obtain rfl := hcase.resolve_right (fun h => hnolink h.1) |>.1
            exact ⟨⟨r, hp, (removes_named_iff hp hone).mpr hnolink⟩, hrest.mpr hlater⟩

/-! ## `mv` moves the named entry -/

/-- What a rename leaves when it does not fail. -/
theorem rename_eq {src real : List Word} (h : rename t src real = .ok t') :
    (∃ e, t.entry src = some e) ∧ (src = real ∧ t' = t
      ∨ ¬src <+: real ∧ t.entry real ≠ some .dir ∧ ∀ q, t'.entry q = t.relocated src real q) := by
  rw [rename] at h
  split at h
  · cases h
  rename_i e he
  refine ⟨⟨e, he⟩, ?_⟩
  split_ifs at h with hsame hmoves
  · exact .inl ⟨hsame, (Except.ok.inj h).symm⟩
  refine .inr ⟨hmoves.apart, ?_⟩
  split at h
  · rename_i hnone
    obtain rfl := Except.ok.inj h
    exact ⟨by rw [hnone]; nofun, fun _ => rfl⟩
  · cases h
  · cases h
  · rename_i hnodir _ _
    split at h
    · obtain rfl := Except.ok.inj h
      exact ⟨fun hdir => hnodir hdir, fun _ => rfl⟩
    · cases h

theorem exists_of_entry {path : List Word} (hpath : t.Direct path) {e : TreeEntry Word β}
    (he : t.entry path = some e) : context.exists? t path = true := by
  have hresolve : t.resolve context.limit [] (path.map .into) = some path := by
    have h : t.resolve context.limit [] (path.map .into ++ [])
        = t.resolve context.limit ([] ++ path) [] := PathTree.resolve_direct hpath
    rw [List.append_nil, List.nil_append] at h
    rw [h, PathTree.resolve_eq_walk]
    rfl
  rw [Context.exists?, hresolve]
  show (t.entry path).isSome = true
  rw [he]
  rfl

/-- A link to something exists. -/
theorem exists_of_link {front : List Word} {name : Word} {limit : ℕ} (hfront : t.Direct front)
    (hle : limit ≤ context.limit) (hr : t.resolve limit front [.into name] = some r)
    {e : TreeEntry Word β} (he : t.entry r = some e) :
    context.exists? t (front ++ [name]) = true := by
  have hresolve : t.resolve context.limit [] ((front ++ [name]).map .into) = some r := by
    have h : t.resolve context.limit [] (front.map .into ++ [.into name])
        = t.resolve context.limit ([] ++ front) [.into name] := PathTree.resolve_direct hfront
    rw [List.map_append, List.map_singleton, h]
    exact PathTree.resolve_mono hr hle
  rw [Context.exists?, hresolve]
  show (t.entry r).isSome = true
  rw [he]
  rfl

/-- What `shutil.move` leaves when it does not fail: nothing has moved, or
the source is at a path where nothing was, or a file. -/
theorem move_eq {src dst : List Word} (hsrc : t.Direct src)
    (h : move context t src dst = .ok t') :
    src = dst ∧ t' = t ∧ t.entry src ≠ none
      ∨ (∃ e, t.entry src = some e) ∧ src ≠ dst ∧ ∃ c, c = destination t src dst
        ∧ (c = dst ∧ t.entry dst ≠ some .dir
          ∨ t.entry dst = some .dir ∧ context.exists? t c = false)
        ∧ ¬src <+: c ∧ ∀ q, t'.entry q = t.relocated src c q := by
  rw [move] at h
  split at h
  · rename_i hdir
    dsimp only at h
    split_ifs at h with hroot hsame hexists
    · exact .inl ⟨hsame, (Except.ok.inj h).symm, by rw [hsame, hdir]; nofun⟩
    · obtain ⟨hsome, hcase⟩ := rename_eq h
      have hdest : destination t src dst = dst ++ [src.getLastD []] := by
        simp only [destination, hdir, if_neg hsame]
      refine .inr ⟨hsome, hsame, _, rfl, .inr ⟨hdir, hdest ▸ eq_false_of_ne_true hexists⟩, ?_⟩
      rw [hdest]
      rcases hcase with ⟨heq, -⟩ | ⟨hapart, -, hentry⟩
      · obtain ⟨e, he⟩ := hsome
        exact absurd (heq ▸ exists_of_entry hsrc he) hexists
      · exact ⟨hapart, hentry⟩
  · rename_i hnodir
    obtain ⟨hsome, hcase⟩ := rename_eq h
    rcases hcase with ⟨heq, rfl⟩ | ⟨hapart, hreal, hentry⟩
    · obtain ⟨e, he⟩ := hsome
      exact .inl ⟨heq, rfl, by rw [he]; nofun⟩
    · have hdest : destination t src dst = dst := by
        rw [destination]
        split
        · rename_i hdir
          exact absurd hdir hnodir
        · rfl
      refine .inr ⟨hsome, ?_, dst, hdest.symm, .inl ⟨rfl, hreal⟩, hapart, hentry⟩
      rintro rfl
      exact hapart List.prefix_rfl

theorem destination_self (t : PathTree Word β) (p : List Word) : destination t p p = p := by
  rw [destination]
  split
  · exact if_pos rfl
  · rfl

/-- What is moved to where something else goes stays apart from it. -/
theorem not_isPrefix_target (context : Context) {q c dst : List Word} {e : TreeEntry Word β}
    (hq : t.entry q = some e)
    (hdirect : ∀ front, front <+: q → front ≠ q → t.Direct front)
    (hself : c = q → c = dst ∧ t.entry dst ≠ some .dir ∨ context.exists? t c = false → False)
    (hc : c = dst ∧ t.entry dst ≠ some .dir
      ∨ t.entry dst = some .dir ∧ context.exists? t c = false) : ¬c <+: q := by
  intro hcq
  by_cases heq : c = q
  · exact hself heq (hc.imp_right fun h => h.2)
  · have hdir := PathTree.entry_above (by rw [hq]; nofun) hcq heq
    rcases hc with ⟨rfl, hnodir⟩ | ⟨-, hexists⟩
    · exact hnodir hdir
    · exact Bool.false_ne_true
        (hexists.symm.trans (exists_of_entry (hdirect c hcq heq) hdir))

/-- A link whose target was moved has not been moved itself. -/
theorem moved_target {src dst front : List Word} {name : Word} {limit : ℕ}
    (hsrc : t.Direct src) (hdst : t.Direct dst) (hfront : t.Direct front)
    (hlink : IsLink t (front ++ [name])) (hle : limit ≤ context.limit)
    (hresolve : t.resolve limit front [.into name] = some src) {c : List Word}
    {e : TreeEntry Word β} (he : t.entry src = some e) (hapart : ¬src <+: c)
    (hc : c = dst ∧ t.entry dst ≠ some .dir
      ∨ t.entry dst = some .dir ∧ context.exists? t c = false) (r : List Word) :
    ∃ q, t.relocated src c q ≠ t.relocated (front ++ [name]) r q := by
  obtain ⟨l, hl, hislink⟩ := hlink
  have hcp : ¬c <+: front ++ [name] := by
    refine not_isPrefix_target context hl (fun above habove hne => ?_) ?_ hc
    · rcases List.prefix_concat_iff.mp habove with heq | habove
      · exact absurd heq hne
      · exact hfront.front habove
    · rintro rfl (⟨rfl, -⟩ | hexists)
      · cases hislink.symm.trans (hdst _ l List.prefix_rfl hl)
      · exact Bool.false_ne_true (hexists.symm.trans (exists_of_link hfront hle hresolve he))
  have hcs : ¬c <+: src := by
    refine not_isPrefix_target context he (fun above habove _ => hsrc.front habove)
      ?_ hc
    rintro rfl -
    exact hapart List.prefix_rfl
  exact PathTree.relocated_ne hl hislink he (hsrc src e List.prefix_rfl he) hcp hcs

/-- The source goes to the destination exactly when it is no link, or a
link that is there already. -/
theorem moves_named_iff {source dest : Word} (h : cmdMv context t [source, dest] = .ok t') :
    MovesNamed context t t' source dest ↔ NoLinkMoved context t source dest := by
  have hpaths : ∃ src dst, context.path t source = .ok src ∧ context.path t dest = .ok dst
      ∧ move context t src dst = .ok t' := by
    simp only [cmdMv] at h
    split at h
    · exact ⟨_, _, ‹_›, ‹_›, h⟩
    · cases h
    · cases h
  obtain ⟨src, dst, hsrc, hdst, hmove⟩ := hpaths
  obtain ⟨p, hp, hcase⟩ := named_of_path hsrc
  have hmoves : MovesNamed context t t' source dest
      ↔ ∀ q, t'.entry q = t.relocated p (destination t p dst) q := by
    constructor
    · rintro ⟨p', dst', hp', hdst', hentry⟩
      obtain rfl := Option.some.inj (hp.symm.trans hp')
      obtain rfl := Except.ok.inj (hdst.symm.trans hdst')
      exact hentry
    · exact fun hentry => ⟨p, dst, hp, hdst, hentry⟩
  have hnolinks : NoLinkMoved context t source dest
      ↔ ¬IsLink t p ∨ destination t p dst = p ∧ src = dst := by
    constructor
    · intro hno
      refine (hno p dst hp hdst).imp_right fun ⟨hdest, hsame⟩ => ⟨hdest, ?_⟩
      exact Except.ok.inj (hsrc.symm.trans hsame)
    · rintro hno p' dst' hp' hdst'
      obtain rfl := Option.some.inj (hp.symm.trans hp')
      obtain rfl := Except.ok.inj (hdst.symm.trans hdst')
      exact hno.imp_right fun ⟨hdest, hsame⟩ => ⟨hdest, hsame ▸ hsrc⟩
  rw [hmoves, hnolinks]
  rcases hcase with ⟨rfl, hnolink⟩ | ⟨hlink, front, name, limit, rfl, hfront, hle, hresolve⟩
  · refine iff_of_true ?_ (.inl hnolink)
    rcases move_eq (direct_path hsrc) hmove with ⟨rfl, rfl, hsome⟩ | ⟨-, -, c, rfl, -, -, hentry⟩
    · intro q
      rw [destination_self, PathTree.relocated_self hsome]
    · exact hentry
  · obtain ⟨l, hl, hislink⟩ := hlink
    rcases move_eq (direct_path hsrc) hmove with
      ⟨rfl, rfl, -⟩ | ⟨⟨e, he⟩, hne, c, rfl, hc, hapart, hentry⟩
    · constructor
      · intro hstays
        refine .inr ⟨?_, rfl⟩
        by_contra hdest
        have hgone := hstays (front ++ [name])
        rw [PathTree.relocated_source hl (by rintro rfl; cases hislink) (Ne.symm hdest), hl]
          at hgone
        cases hgone
      · rintro (hno | ⟨hdest, -⟩) q
        · exact absurd ⟨l, hl, hislink⟩ hno
        · rw [hdest, PathTree.relocated_self (by rw [hl]; nofun)]
    · refine iff_of_false (fun hstays => ?_) ?_
      · obtain ⟨q, hq⟩ := moved_target (direct_path hsrc) (direct_path hdst) hfront
          ⟨l, hl, hislink⟩ hle hresolve he hapart hc (destination t (front ++ [name]) dst)
        exact hq ((hentry q).symm.trans (hstays q))
      · rintro (hno | ⟨-, hsame⟩)
        · exact hno ⟨l, hl, hislink⟩
        · exact hne hsame

/-! ## Every operand list -/

/-- The flags and the operands of an argument list that is accepted. -/
def RmRemovesNamed (context : Context) (t : PathTree Word β) (args : List Word) : Prop :=
  ∀ flags, args.foldlM parseFlag ⟨false, false⟩ = .ok flags →
    RemovesNamed context flags t (operands args)

theorem rm_removes_named_iff {args : List Word} (h : cmdRm context t args = .ok t') :
    RmRemovesNamed context t args ↔ NoLinks context t (operands args) := by
  rw [cmdRm] at h
  split at h
  · cases h
  rename_i flags hflags
  split_ifs at h
  have hiff := removesNamed_iff h
  constructor
  · exact fun hremoves => hiff.mp (hremoves flags hflags)
  · intro hno flags' hflags'
    obtain rfl := Except.ok.inj (hflags.symm.trans hflags')
    exact hiff.mpr hno

/-- **`rm` and `mv` act on the named entry** exactly when no operand that
is removed, and not the source that is moved, is a link. -/
theorem named_entry_iff (context : Context) (t t' : PathTree Word β) :
    (∀ args, cmdRm context t args = .ok t' →
      (RmRemovesNamed context t args ↔ NoLinks context t (operands args)))
    ∧ ∀ source dest, cmdMv context t [source, dest] = .ok t' →
      (MovesNamed context t t' source dest ↔ NoLinkMoved context t source dest) :=
  ⟨fun _ h => rm_removes_named_iff h, fun _ _ h => moves_named_iff h⟩

/-! ## A link to a file -/

def sampleEntry : List Word → Option (TreeEntry Word ℕ)
  | [] => some .dir
  | [name] =>
    if name = "data".toList then some .dir
    else if name = "link".toList then some (.link true [.into "data".toList, .into "f".toList])
    else none
  | [folder, name] => if folder = "data".toList ∧ name = "f".toList then some (.file 0) else none
  | _ => none

def sampleTree : PathTree Word ℕ where
  entry := sampleEntry
  root := rfl
  parent path name h := by
    match path with
    | [] => rfl
    | [folder] =>
        by_cases hfolder : folder = "data".toList ∧ name = "f".toList
        · rw [hfolder.1]
          rfl
        · exact absurd (if_neg hfolder) h
    | _ :: _ :: rest => cases rest <;> exact absurd rfl h

def sampleContext : Context where
  cwd := []
  expandUser := id
  limit := 40

theorem not_isLink {e : TreeEntry Word β} (he : t.entry p = some e) (hkind : e.isLink = false) :
    ¬IsLink t p := by
  rintro ⟨e', he', hlink⟩
  obtain rfl := Option.some.inj (he.symm.trans he')
  exact Bool.false_ne_true (hkind.symm.trans hlink)

theorem named_link : sampleContext.named sampleTree "link".toList = some ["link".toList] := by
  decide

/-- `rm link` removes the file the link points to, and `mv link new` moves
it. -/
theorem link_operand_reaches_target :
    (∃ t', cmdRm sampleContext sampleTree ["link".toList] = .ok t'
      ∧ t'.entry ["data".toList, "f".toList] = none
      ∧ ¬RmRemovesNamed sampleContext sampleTree ["link".toList])
    ∧ ∃ t', cmdMv sampleContext sampleTree ["link".toList, "new".toList] = .ok t'
      ∧ t'.entry ["new".toList] = some (.file 0)
      ∧ ¬MovesNamed sampleContext sampleTree t' "link".toList "new".toList := by
  constructor
  · have hrm : cmdRm sampleContext sampleTree ["link".toList]
        = .ok (sampleTree.erase ["data".toList, "f".toList]) := rfl
    refine ⟨_, hrm, rfl, fun h => ?_⟩
    have hnolinks := (rm_removes_named_iff hrm).mp h
    exact (hnolinks _ named_link).1 ⟨_, rfl, rfl⟩
  · have hmoves : sampleTree.Relocates ["data".toList, "f".toList] ["new".toList] := by decide
    have hmv : cmdMv sampleContext sampleTree ["link".toList, "new".toList]
        = .ok (sampleTree.relocate _ _ hmoves) := rfl
    refine ⟨_, hmv, rfl, fun h => ?_⟩
    rcases (moves_named_iff hmv).mp h _ ["new".toList] named_link rfl with hno | ⟨-, hsame⟩
    · exact hno ⟨_, rfl, rfl⟩
    · cases hsame

/-- Beside the link: a file and then the directory that it was in, and the
directory with the file below it. -/
theorem operands_beside_link : IsLink sampleTree ["link".toList] ∧
    RmRemovesNamed sampleContext sampleTree ["-r".toList, "data/f".toList, "data".toList]
      ∧ ∃ t', t'.entry ["new".toList, "f".toList] = some (.file 0)
        ∧ MovesNamed sampleContext sampleTree t' "data".toList "new".toList := by
  let emptied := sampleTree.erase ["data".toList, "f".toList]
  have hfile : sampleContext.named sampleTree "data/f".toList
      = some ["data".toList, "f".toList] := by decide
  have hfolder : sampleContext.named sampleTree "data".toList = some ["data".toList] := by decide
  have hemptied : sampleContext.named emptied "data".toList = some ["data".toList] := by
    decide
  have hnotFile : ¬IsLink sampleTree ["data".toList, "f".toList] :=
    not_isLink (e := .file 0) rfl rfl
  have hnotFolder : ¬IsLink sampleTree ["data".toList] := not_isLink (e := .dir) rfl rfl
  have hnotEmptied : ¬IsLink emptied ["data".toList] := not_isLink (e := .dir) rfl rfl
  have hrm : cmdRm sampleContext sampleTree ["-r".toList, "data/f".toList, "data".toList]
      = .ok (emptied.erase ["data".toList]) := rfl
  have hmoves : sampleTree.Relocates ["data".toList] ["new".toList] := by decide
  have hmv : cmdMv sampleContext sampleTree ["data".toList, "new".toList]
      = .ok (sampleTree.relocate _ _ hmoves) := rfl
  refine ⟨⟨_, rfl, rfl⟩,
    ((named_entry_iff sampleContext sampleTree _).1 _ hrm).mpr fun p hp => ⟨?_, fun p' hp' => ?_⟩,
    _, rfl,
    ((named_entry_iff sampleContext sampleTree _).2 _ _ hmv).mpr fun p dst hp _ => .inl ?_⟩
  · exact Option.some.inj (hfile.symm.trans hp) ▸ hnotFile
  · obtain rfl := Option.some.inj (hfile.symm.trans hp)
    exact ⟨Option.some.inj (hemptied.symm.trans hp') ▸ hnotEmptied, trivial⟩
  · exact Option.some.inj (hfolder.symm.trans hp) ▸ hnotFolder

end FileCommands

end Zmux
