import Mathlib.Data.Char
import Mathlib.Data.List.Lex
import Mathlib.Data.List.Pairwise
import Mathlib.Data.List.Sort
import Zmux.KeyedRecords
import Zmux.Utf8

/-!
# The source lock

`local_source_hash` of `scripts/verify_source_lock.py` locks the source of
a package: it feeds SHA-256 with the tracked files of the package
directory, sorted by path, each as its relative path, a NUL and its bytes.

The NUL ends a path, but nothing ends a file. So a lock value determines
the files only of a tree with one file, and only if its content has no
place that reads as a further path with a NUL (`lock_determines_iff`). Of
any other tree there is another one with the same input of the hash.
-/

namespace Zmux

/-- A path below the package directory, as a list of names. -/
structure SourcePath where
  parts : List (List Char)
  nonempty : parts ≠ []
  wellFormed : ∀ part ∈ parts, part ≠ [] ∧ '/' ∉ part ∧ '\x00' ∉ part
    ∧ part ≠ ".".toList ∧ part ≠ "..".toList
deriving DecidableEq

namespace SourcePath

def name (p : SourcePath) : List Char := p.parts.getLast p.nonempty

def asPosix (p : SourcePath) : List Char := ['/'].intercalate p.parts

/-- `relative_to(package_dir).as_posix().encode("utf-8")`. -/
def encoded (p : SourcePath) : List UInt8 := Utf8.encode p.asPosix

/-- The order of paths. -/
def le (p q : SourcePath) : Bool := p.parts ≤ q.parts

/-- Of two tracked files: the paths are in order, and the first is not a
directory of the second. -/
def Before (p q : SourcePath) : Prop := p.parts < q.parts ∧ ¬p.parts <+: q.parts

end SourcePath

/-! ## The files of a package -/

/-- The git index below the package directory, and the files. -/
structure WorkTree where
  tracked : List SourcePath
  nodup : tracked.Nodup
  /-- No file is a directory of another. -/
  apart : ∀ p ∈ tracked, ∀ q ∈ tracked, p.parts <+: q.parts → p = q
  readBytes : SourcePath → List UInt8

/-- The tracked files apart from the recipe, which holds the lock value. -/
def payload (tracked : List SourcePath) : List SourcePath :=
  tracked.filter fun p => p.name ≠ "recipe.yaml".toList

/-- `local_source_files`, on what `git ls-files` lists. -/
def localSourceFiles (packageDir : String) (tracked : List SourcePath) :
    Except String (List SourcePath) :=
  let files := (payload tracked).mergeSort SourcePath.le
  if files = [] then .error ("No tracked source files found for " ++ packageDir)
  else .ok files

/-- What `local_source_hash` feeds to SHA-256. -/
def hashInput (files : List (SourcePath × List UInt8)) : List UInt8 :=
  files.flatMap fun file => file.1.encoded ++ 0 :: file.2

def localSourceHash (sha256 : List UInt8 → String) (packageDir : String) (tree : WorkTree) :
    Except String String := do
  let files ← localSourceFiles packageDir tree.tracked
  return sha256 (hashInput (files.map fun p => (p, tree.readBytes p)))

/-! ## Lists of files -/

/-- A path that is hashed. -/
abbrev TrackedPath := { p : SourcePath // p.name ≠ "recipe.yaml".toList }

/-- A list of tracked files, sorted by path. -/
abbrev TrackedFiles := KeyedRecords TrackedPath UInt8 fun p q => p.1.Before q.1

def TrackedFiles.files (l : TrackedFiles) : List (SourcePath × List UInt8) :=
  l.records.map fun record => (record.1.1, record.2)

theorem hashInput_files (l : TrackedFiles) :
    hashInput l.files = KeyedRecords.bytes (fun p : TrackedPath => p.1.encoded) 0 l.records :=
  List.flatMap_map ..

theorem SourcePath.ext {p q : SourcePath} (h : p.parts = q.parts) : p = q := by
  cases p
  cases q
  dsimp only at h
  subst h
  rfl

theorem pairwise_sort (paths : List SourcePath) :
    (paths.mergeSort SourcePath.le).Pairwise fun p q => p.parts ≤ q.parts := by
  have hsorted := @List.pairwise_mergeSort _ SourcePath.le
    (fun p q r hpq hqr => decide_eq_true
      (le_trans (of_decide_eq_true hpq) (of_decide_eq_true hqr)))
    (fun p q => by
      rcases le_total p.parts q.parts with h | h
      · rw [SourcePath.le, decide_eq_true h, Bool.true_or]
      · rw [SourcePath.le, SourcePath.le, decide_eq_true h, Bool.or_true]) paths
  exact hsorted.imp of_decide_eq_true

/-- What is hashed of a tree is a list of tracked files. -/
theorem exists_trackedFiles {packageDir : String} {tree : WorkTree} {files : List SourcePath}
    (h : localSourceFiles packageDir tree.tracked = .ok files) :
    ∃ l : TrackedFiles, l.files = files.map fun p => (p, tree.readBytes p) := by
  rw [localSourceFiles] at h
  split at h
  · cases h
  · rename_i hne
    obtain rfl := Except.ok.inj h
    have hperm := List.mergeSort_perm (payload tree.tracked) SourcePath.le
    have hmem : ∀ p ∈ (payload tree.tracked).mergeSort SourcePath.le,
        p ∈ tree.tracked ∧ p.name ≠ "recipe.yaml".toList := by
      intro p hp
      obtain ⟨htracked, hname⟩ := List.mem_filter.mp (hperm.mem_iff.mp hp)
      exact ⟨htracked, of_decide_eq_true hname⟩
    have hnodup : ((payload tree.tracked).mergeSort SourcePath.le).Nodup :=
      hperm.nodup_iff.mpr (tree.nodup.filter _)
    have hbefore : ((payload tree.tracked).mergeSort SourcePath.le).Pairwise
        SourcePath.Before := by
      refine ((pairwise_sort _).and hnodup).imp_of_mem ?_
      rintro p q hp hq ⟨hle, hpq⟩
      exact ⟨lt_of_le_of_ne hle fun heq => hpq (SourcePath.ext heq),
        fun hprefix => hpq (tree.apart p (hmem p hp).1 q (hmem q hq).1 hprefix)⟩
    refine ⟨⟨((payload tree.tracked).mergeSort SourcePath.le).attach.map fun p =>
      (⟨p.1, (hmem p.1 p.2).2⟩, tree.readBytes p.1), ?_, ?_⟩, ?_⟩
    · simpa using hne
    · refine List.pairwise_map.mpr ?_
      refine List.Pairwise.of_map Subtype.val (fun _ _ h => h) ?_
      rwa [List.attach_map_subtype_val]
    · simp [TrackedFiles.files]

/-- The content of a file of the list. -/
def contentAt (records : List (TrackedPath × List UInt8)) (p : SourcePath) : List UInt8 :=
  match records.find? fun record => record.1.1 = p with
  | some record => record.2
  | none => []

theorem contentAt_of_mem {records : List (TrackedPath × List UInt8)}
    (hnodup : (records.map fun record => record.1.1).Nodup) {record : TrackedPath × List UInt8}
    (h : record ∈ records) : contentAt records record.1.1 = record.2 := by
  induction records with
  | nil => cases h
  | cons head rest ih =>
      obtain ⟨hnotMem, hnodup⟩ := List.nodup_cons.mp hnodup
      rcases List.mem_cons.mp h with rfl | h
      · simp [contentAt]
      · have hne : head.1.1 ≠ record.1.1 := fun heq =>
          hnotMem (List.mem_map.mpr ⟨record, h, heq.symm⟩)
        rw [← ih hnodup h, contentAt, List.find?_cons_of_neg (by simpa using hne), contentAt]

/-- And every list of tracked files is hashed of a tree. -/
theorem exists_workTree (packageDir : String) (l : TrackedFiles) :
    ∃ (tree : WorkTree) (files : List SourcePath),
      localSourceFiles packageDir tree.tracked = .ok files
        ∧ (files.map fun p => (p, tree.readBytes p)) = l.files := by
  have hbefore : (l.records.map fun record => record.1.1).Pairwise SourcePath.Before :=
    List.pairwise_map.mpr l.sorted
  have hnodup : (l.records.map fun record => record.1.1).Nodup :=
    List.nodup_iff_pairwise_ne.mpr (hbefore.imp fun h heq => (heq ▸ h.1).ne rfl)
  have hfiles : payload (l.records.map fun record => record.1.1)
      = l.records.map fun record => record.1.1 := by
    refine List.filter_eq_self.mpr fun p hp => ?_
    obtain ⟨record, _, rfl⟩ := List.mem_map.mp hp
    exact decide_eq_true record.1.2
  have hsort : (l.records.map fun record => record.1.1).mergeSort SourcePath.le
      = l.records.map fun record => record.1.1 :=
    List.mergeSort_of_pairwise (hbefore.imp fun h => decide_eq_true h.1.le)
  refine ⟨⟨l.records.map fun record => record.1.1, hnodup, ?_, contentAt l.records⟩,
    l.records.map fun record => record.1.1, ?_, ?_⟩
  · intro p hp q hq hprefix
    by_contra hne
    have heither : (l.records.map fun record => record.1.1).Pairwise
        fun p q => p.Before q ∨ q.Before p := hbefore.imp Or.inl
    have : Std.Symm fun p q : SourcePath => p.Before q ∨ q.Before p := ⟨fun _ _ => Or.symm⟩
    rcases heither.forall hp hq hne with h | h
    · exact h.2 hprefix
    · exact absurd h.1 (List.not_lt.mpr hprefix.le)
  · have hne : (l.records.map fun record => record.1.1) ≠ [] := by
      simpa using l.nonempty
    rw [localSourceFiles, hfiles, hsort, if_neg hne]
  · rw [List.map_map]
    exact List.map_congr_left fun record h =>
      congrArg (Prod.mk record.1.1) (contentAt_of_mem hnodup h)

theorem asPosix_injective : Function.Injective SourcePath.asPosix := by
  intro p q h
  refine SourcePath.ext ?_
  have hsplit : ∀ r : SourcePath, r.asPosix.splitOn '/' = r.parts := fun r =>
    List.splitOn_intercalate '/' (fun part hpart => (r.wellFormed part hpart).2.1) r.nonempty
  rw [← hsplit p, h, hsplit]

theorem mem_intercalate {c sep : Char} {parts : List (List Char)}
    (h : c ∈ [sep].intercalate parts) : c = sep ∨ ∃ part ∈ parts, c ∈ part := by
  induction parts with
  | nil => cases h
  | cons part rest ih =>
      cases rest with
      | nil =>
          rw [List.intercalate_singleton] at h
          exact Or.inr ⟨part, List.mem_cons_self, h⟩
      | cons next rest =>
          rw [List.intercalate_cons_cons] at h
          rcases List.mem_append.mp h with h | h
          · rcases List.mem_append.mp h with h | h
            · exact Or.inr ⟨part, List.mem_cons_self, h⟩
            · exact Or.inl (List.mem_singleton.mp h)
          · rcases ih h with heq | ⟨other, hother, hc⟩
            · exact Or.inl heq
            · exact Or.inr ⟨other, List.mem_cons_of_mem _ hother, hc⟩

theorem nul_notMem_asPosix (p : SourcePath) : '\x00' ∉ p.asPosix := by
  intro hmem
  rcases mem_intercalate hmem with heq | ⟨part, hpart, hc⟩
  · cases heq
  · exact (p.wellFormed part hpart).2.2.1 hc

theorem encode_injective : Function.Injective Utf8.encode := by
  intro text text' h
  rw [← @Utf8.decode_encode [] text, h, Utf8.decode_encode]

/-- A NUL byte is a NUL. -/
theorem nul_of_zero {text : List Char} (h : 0 ∈ Utf8.encode text) : '\x00' ∈ text := by
  obtain ⟨front, back, hsplit⟩ := List.append_of_mem h
  have hdecode := @Utf8.decodeFrom_ascii [] 0 (by decide) .start front back
  rw [← hsplit, ← Utf8.decode, Utf8.decode_encode] at hdecode
  rw [hdecode]
  exact List.mem_append_right _ List.mem_cons_self

theorem encoded_injective : Function.Injective fun p : TrackedPath => p.1.encoded :=
  fun _ _ h => Subtype.ext (asPosix_injective (encode_injective h))

theorem zero_notMem_encoded (p : TrackedPath) : 0 ∉ p.1.encoded :=
  fun h => nul_notMem_asPosix p.1 (nul_of_zero h)

/-- **The hashed bytes are those of one list of files exactly when there is
one file, without a place in it that reads as a later path and a NUL.** -/
theorem lock_determines_iff (l : TrackedFiles) :
    (∀ l' : TrackedFiles, hashInput l'.files = hashInput l.files → l' = l)
      ↔ ∃ p content, l.records = [(p, content)] ∧ ∀ (q : TrackedPath) (front back : List UInt8),
        p.1.Before q.1 → content ≠ front ++ q.1.encoded ++ 0 :: back := by
  simp only [hashInput_files]
  exact KeyedRecords.determined_iff _ 0 encoded_injective zero_notMem_encoded l

/-! Moving one file into another: `a.py` with the text `x` and `b.py` with
the text `y`, and an empty `a.py` with `xb.py`. -/

/-- A path in the package directory itself. -/
def topLevel (name : List Char) (h : name ≠ [] ∧ '/' ∉ name ∧ '\x00' ∉ name
    ∧ name ≠ ".".toList ∧ name ≠ "..".toList) : SourcePath :=
  ⟨[name], List.cons_ne_nil _ _, fun _ hpart => List.mem_singleton.mp hpart ▸ h⟩

def aPath : TrackedPath := ⟨topLevel "a.py".toList (by decide), by decide⟩

def bPath : TrackedPath := ⟨topLevel "b.py".toList (by decide), by decide⟩

def xbPath : TrackedPath := ⟨topLevel "xb.py".toList (by decide), by decide⟩

def lockedFiles : TrackedFiles :=
  ⟨[(aPath, Utf8.encode ['x']), (bPath, Utf8.encode ['y'])], List.cons_ne_nil _ _,
    List.pairwise_pair.mpr ⟨by decide, by decide⟩⟩

def movedFiles : TrackedFiles :=
  ⟨[(aPath, []), (xbPath, Utf8.encode ['y'])], List.cons_ne_nil _ _,
    List.pairwise_pair.mpr ⟨by decide, by decide⟩⟩

theorem lock_shared : hashInput lockedFiles.files = hashInput movedFiles.files
    ∧ lockedFiles.files ≠ movedFiles.files := by
  decide

end Zmux
