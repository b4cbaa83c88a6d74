import Mathlib.Data.List.Lex
import Mathlib.Data.List.Sort
import Mathlib.Data.Prod.Lex
import Zmux.CuratedCatalog
import Zmux.LightestByKey

/-!
# Searching for packages

`search` of `zpip.py` looks for the tokens of a query in the names and
summaries of three sources: the curated catalog, the installed packages
and, for a single token that is a name, the record of PyPI. Its table of
hits keeps the lightest hit of each name.

The rank of a hit depends on its name alone, so of the hits of a name the
richest source is the lightest. The record of PyPI is read outside the
`try` block of the probe, so a search raises where the record is no dict;
otherwise it is exact (`search_exact_iff`).
-/

namespace Zmux

open Json (get?)
open CuratedCatalog (Exc)

namespace ZpipSearch

/-! ## Python -/

/-- What the function uses of Python's values: `str.lower`, `str` of a value
that is no string, and whether a float is zero. -/
structure Python where
  lower : Codes → Codes
  repr : Json → Codes
  isZero : List Char → Bool

/-- A dict, in the order of its items. -/
structure Dict where
  items : List (Codes × Json)
  nodup : (items.map Prod.fst).Nodup

variable (py : Python)

def truthy : Json → Bool
  | .null => false
  | .bool b => b
  | .int n => n ≠ 0
  | .float literal => !py.isZero literal
  | .string text => !text.isEmpty
  | .array items => !items.isEmpty
  | .object fields => !fields.isEmpty

/-- `str(v)`. -/
def str : Json → Codes
  | .string text => text
  | v => py.repr v

/-- `str(v or otherwise)`; without the field, `v` is `None`. -/
def strOr (v : Option Json) (otherwise : Codes) : Codes :=
  match v with
  | some v => if truthy py v then str py v else otherwise
  | none => otherwise

def isSepCode (c : ℕ) : Bool := c ∈ codes "-_."

/-- `re.sub(r"[-_.]+", "-", s)`. -/
def collapseCodes : Codes → Codes
  | [] => []
  | c :: rest =>
    if isSepCode c then
      if (rest.head?.map isSepCode).getD false then collapseCodes rest
      else '-'.toNat :: collapseCodes rest
    else c :: collapseCodes rest

/-- `_norm`. -/
def norm (name : Codes) : Codes := collapseCodes (py.lower name)

def isLowerAlnum (c : ℕ) : Bool :=
  ('a'.toNat ≤ c && c ≤ 'z'.toNat) || ('0'.toNat ≤ c && c ≤ '9'.toNat)

/-- The tokens behind the start of one, in reverse; there is none where it
is empty. -/
def findTokens : (token : Codes) → Codes → List Codes
  | [], [] => []
  | token, [] => [token.reverse]
  | [], c :: rest => if isLowerAlnum c then findTokens [c] rest else findTokens [] rest
  | t :: token, c :: rest =>
    if isLowerAlnum c || c ∈ codes "+._-" then findTokens (c :: t :: token) rest
    else (t :: token).reverse :: findTokens [] rest

/-- `_QUERY_TOKEN.findall(raw.lower())`. -/
def queryTokens (raw : Codes) : List Codes := findTokens [] (py.lower raw)

/-- `_NAME.fullmatch` of a token. -/
def isName : Codes → Bool
  | [] => false
  | c :: rest => isLowerAlnum c && decide (rest.length ≤ 127)
    && rest.all fun c => isLowerAlnum c || isSepCode c

/-! ## Hits -/

inductive Source where
  | curated
  | pypi
  | installed
deriving DecidableEq

/-- `_SOURCE_PRIORITY`. -/
def Source.priority : Source → ℕ
  | .curated => 0
  | .pypi => 1
  | .installed => 2

/-- What `_consider` is called with. -/
structure Record where
  name : Codes
  version : Codes
  summary : Codes
  source : Source
deriving DecidableEq

structure Entry where
  name : Codes
  version : Codes
  summary : Codes
  source : Source
  installed : Bool
deriving DecidableEq

/-- Every token is in the name, or in the summary. -/
def Matches (tokens : List Codes) (name summary : Codes) : Prop :=
  ∀ token ∈ tokens, norm py token <:+: norm py name ∨ token <:+: py.lower summary

instance (tokens : List Codes) (name summary : Codes) :
    Decidable (Matches py tokens name summary) :=
  inferInstanceAs (Decidable (∀ token ∈ tokens, _))

/-- `_rank`. -/
def rank (tokens : List Codes) (name summary : Codes) : Option ℕ :=
  if ¬ Matches py tokens name summary then none
  else if tokens.map (norm py) = [norm py name] then some 0
  else if ∀ token ∈ tokens, norm py token <:+: norm py name then some 1
  else some 2

/-- An item of `hits`. -/
structure Hit where
  key : Codes
  rank : ℕ
  entry : Entry
deriving DecidableEq

def Hit.weight (hit : Hit) : ℕ ×ₗ ℕ := toLex (hit.rank, hit.entry.source.priority)

/-- What `_consider` makes of a record, if it matches. -/
def hit? (tokens : List Codes) (installed : Dict) (record : Record) : Option Hit :=
  (rank py tokens record.name record.summary).map fun rank =>
    { key := norm py record.name
      rank
      entry :=
        { name := record.name
          version := record.version
          summary := record.summary
          source := record.source
          installed := norm py record.name ∈ installed.items.map Prod.fst } }

/-- `_consider`. -/
def consider (tokens : List Codes) (installed : Dict) (hits : List Hit) (record : Record) :
    List Hit :=
  match hit? py tokens installed record with
  | none => hits
  | some hit => LightestByKey.consider Hit.key Hit.weight hits hit

/-! ## The search -/

/-- The record that `_probe_pypi` makes. -/
structure Probe where
  name : Codes
  version : Codes
  summary : Codes
deriving DecidableEq

/-- `metadata.get("info") or {}`, if it has a `get`. -/
def info? (metadata : List (Codes × Json)) : Option (List (Codes × Json)) :=
  match (get? metadata (codes "info")).getD .null with
  | .object fields => some fields
  | v => if truthy py v then none else some []

/-- `_probe_pypi` of a name, with the dict that the request gives, if it
does not raise. -/
def probePypi (name : Codes) (response : Option (List (Codes × Json))) :
    Except Exc (Option Probe) :=
  match response with
  | none => .ok none
  | some metadata =>
    match info? py metadata with
    | none => .error .attributeError
    | some info => .ok <| some
      { name := strOr py (get? info (codes "name")) name
        version := strOr py (get? info (codes "version")) []
        summary := strOr py (get? info (codes "summary")) [] }

inductive PypiStatus where
  | skipped
  | live
  | unavailable
deriving DecidableEq

/-- What the search consults: the catalog with its status, the installed
packages, and the dict that PyPI has for a name. -/
structure Sources where
  catalog : Dict
  curatedStatus : CuratedCatalog.Status
  installed : Dict
  offline : Bool
  pypi : Codes → Option (List (Codes × Json))

structure Found where
  query : Codes
  results : List Entry
  curated : CuratedCatalog.Status
  pypi : PypiStatus
deriving DecidableEq

/-- The dict that `search` returns. -/
inductive Outcome where
  | refused (query : Codes) (error : String)
  | found (result : Found)
deriving DecidableEq

/-- The records of the catalog: values that are no dicts are skipped. -/
def curatedRecords (catalog : Dict) : List Record :=
  catalog.items.filterMap fun item =>
    match item.2 with
    | .object manifest => some
      { name := str py ((get? manifest (codes "name")).getD (.string item.1))
        version := strOr py (get? manifest (codes "version")) []
        summary := strOr py (get? manifest (codes "summary")) []
        source := .curated }
    | _ => none

def installedRecord (item : Codes × Json) : Record where
  name := item.1
  version :=
    match item.2 with
    | .object record => strOr py (get? record (codes "version")) []
    | _ => []
  summary := []
  source := .installed

def installedRecords (installed : Dict) : List Record :=
  installed.items.map (installedRecord py)

/-- The token that PyPI is asked for, if there is one. -/
def probed (w : Sources) (tokens : List Codes) : Option Codes :=
  match tokens with
  | [token] =>
    if isName token && !w.offline
        && !decide (norm py token ∈ w.catalog.items.map fun item => norm py item.1) then
      some token
    else none
  | _ => none

def Probe.record (probe : Probe) : Record := ⟨probe.name, probe.version, probe.summary, .pypi⟩

/-- The record of PyPI, if it is asked and has one, and what is said of it. -/
def askPypi (w : Sources) (tokens : List Codes) : Except Exc (List Record × PypiStatus) :=
  match probed py w tokens with
  | none => .ok ([], .skipped)
  | some token =>
    match probePypi py token (w.pypi token) with
    | .error e => .error e
    | .ok (some probe) => .ok ([probe.record], .live)
    | .ok none => .ok ([], .unavailable)

/-- `sorted(hits.values(), key=lambda item: (item[0], item[2]["name"]))`. -/
def Hit.le (hit hit' : Hit) : Bool :=
  (toLex (hit.rank, hit.entry.name) : ℕ ×ₗ Codes) ≤ toLex (hit'.rank, hit'.entry.name)

/-- `search`. -/
def search (w : Sources) (raw : Codes) : Except Exc Outcome :=
  let tokens := queryTokens py raw
  if tokens = [] then .ok (.refused raw "empty search query")
  else
    let hits := (curatedRecords py w.catalog).foldl (consider py tokens w.installed) []
    let hits := (installedRecords py w.installed).foldl (consider py tokens w.installed) hits
    match askPypi py w tokens with
    | .error e => .error e
    | .ok (found, pypi) =>
      let hits := found.foldl (consider py tokens w.installed) hits
      .ok <| .found
        { query := raw
          results := (hits.mergeSort Hit.le).map Hit.entry
          curated := w.curatedStatus
          pypi }

/-! ## What is asked of it -/

def pypiRecords (w : Sources) (tokens : List Codes) : List Record :=
  match askPypi py w tokens with
  | .ok (found, _) => found
  | .error _ => []

/-- The records that are consulted. -/
def consulted (w : Sources) (tokens : List Codes) : List Record :=
  curatedRecords py w.catalog ++ installedRecords py w.installed ++ pypiRecords py w tokens

def Record.entry (record : Record) (installed : Bool) : Entry :=
  ⟨record.name, record.version, record.summary, record.source, installed⟩

structure Exact (w : Sources) (tokens : List Codes) (results : List Entry) : Prop where
  /-- No normalised name comes twice. -/
  once : results.Pairwise fun e e' => norm py e.name ≠ norm py e'.name
  complete : ∀ record ∈ consulted py w tokens, Matches py tokens record.name record.summary →
    ∃ e ∈ results, norm py e.name = norm py record.name
  /-- An entry is that of the richest record of its name that matches. -/
  richest : ∀ e ∈ results, ∃ record ∈ consulted py w tokens,
    Matches py tokens record.name record.summary
      ∧ e = record.entry (norm py record.name ∈ w.installed.items.map Prod.fst)
      ∧ ∀ other ∈ consulted py w tokens, norm py other.name = norm py record.name →
        Matches py tokens other.name other.summary →
          record.source.priority ≤ other.source.priority
  sorted : results.Pairwise fun e e' => ∃ r r', rank py tokens e.name e.summary = some r
    ∧ rank py tokens e'.name e'.summary = some r'
    ∧ (toLex (r, e.name) : ℕ ×ₗ Codes) < toLex (r', e'.name)

/-- The same sources, but for the order of the catalog and of the installed
packages. -/
structure SameSources (w w' : Sources) : Prop where
  catalog : w.catalog.items.Perm w'.catalog.items
  curatedStatus : w.curatedStatus = w'.curatedStatus
  installed : w.installed.items.Perm w'.installed.items
  offline : w.offline = w'.offline
  pypi : w.pypi = w'.pypi

/-- PyPI is not asked, or does not answer, or what it has as `info` is a
dict or nothing. -/
def Readable (w : Sources) (tokens : List Codes) : Prop :=
  ∀ token, probed py w tokens = some token → ∀ metadata, w.pypi token = some metadata →
    ∀ v, get? metadata (codes "info") = some v → truthy py v = true →
      ∃ fields, v = .object fields

/-! ## Hits -/

variable {py} {w w' : Sources} {tokens : List Codes} {installed : Dict} {record other : Record}
  {hit hit' : Hit}

/-- The rank of a match depends on the name alone. -/
theorem rank_eq {name summary name' summary' : Codes} (hname : norm py name = norm py name')
    (h : Matches py tokens name summary) (h' : Matches py tokens name' summary') :
    rank py tokens name summary = rank py tokens name' summary' := by
  rw [rank, rank, if_neg (not_not.mpr h), if_neg (not_not.mpr h'), hname]

theorem matches_iff {name summary : Codes} :
    Matches py tokens name summary ↔ ∃ r, rank py tokens name summary = some r := by
  rw [rank]
  by_cases h : Matches py tokens name summary
  · rw [if_neg (not_not.mpr h)]
    refine ⟨fun _ => ?_, fun _ => h⟩
    split
    · exact ⟨0, rfl⟩
    · split
      · exact ⟨1, rfl⟩
      · exact ⟨2, rfl⟩
  · rw [if_pos h]
    exact ⟨fun hm => absurd hm h, fun ⟨_, hr⟩ => by cases hr⟩

theorem hit?_eq_some :
    hit? py tokens installed record = some hit
      ↔ hit.key = norm py record.name
        ∧ rank py tokens record.name record.summary = some hit.rank
        ∧ hit.entry = record.entry (norm py record.name ∈ installed.items.map Prod.fst) := by
  rw [hit?]
  cases hrank : rank py tokens record.name record.summary with
  | none => simp
  | some r =>
      rw [Option.map_some, Option.some_inj, Option.some_inj]
      constructor
      · rintro rfl
        exact ⟨rfl, rfl, rfl⟩
      · obtain ⟨key, rank, entry⟩ := hit
        rintro ⟨rfl, rfl, rfl⟩
        rfl

/-- The hits of all records. -/
def candidates (py : Python) (w : Sources) (tokens : List Codes) : List Hit :=
  (consulted py w tokens).filterMap (hit? py tokens w.installed)

/-- The table of `search`. -/
def table (py : Python) (w : Sources) (tokens : List Codes) : List Hit :=
  LightestByKey.collect Hit.key Hit.weight (candidates py w tokens)

theorem foldl_consider (records : List Record) (hits : List Hit) :
    records.foldl (consider py tokens installed) hits
      = (records.filterMap (hit? py tokens installed)).foldl
        (LightestByKey.consider Hit.key Hit.weight) hits := by
  induction records generalizing hits with
  | nil => rfl
  | cons record records ih =>
      rw [List.foldl_cons, ih, List.filterMap_cons, consider]
      cases hit? py tokens installed record with
      | none => rfl
      | some hit => rfl

theorem search_eq {raw : Codes} (h : queryTokens py raw ≠ []) {found : List Record}
    {pypi : PypiStatus} (hask : askPypi py w (queryTokens py raw) = .ok (found, pypi)) :
    search py w raw = .ok (.found
      { query := raw
        results := ((table py w (queryTokens py raw)).mergeSort Hit.le).map Hit.entry
        curated := w.curatedStatus
        pypi }) := by
  rw [search, table, candidates, consulted, pypiRecords]
  dsimp only
  rw [if_neg h, hask]
  dsimp only
  rw [← List.foldl_append, ← List.foldl_append, foldl_consider, ← List.append_assoc]
  rfl

theorem info?_isSome {metadata : List (Codes × Json)} :
    (info? py metadata).isSome = true ↔ ∀ v, get? metadata (codes "info") = some v →
      truthy py v = true → ∃ fields, v = .object fields := by
  rw [info?]
  cases hinfo : get? metadata (codes "info") with
  | none => simp [truthy]
  | some v =>
      cases v with
      | object fields => simp
      | _ =>
          dsimp only [Option.getD_some]
          split <;> simp_all

/-- PyPI is read unless what it has as `info` is no dict. -/
theorem askPypi_ok_iff :
    (∃ found pypi, askPypi py w tokens = .ok (found, pypi)) ↔ Readable py w tokens := by
  unfold askPypi Readable
  cases probed py w tokens with
  | none => simp
  | some token =>
      simp only [Option.some.injEq, forall_eq']
      unfold probePypi
      cases w.pypi token with
      | none => simp
      | some metadata =>
          simp only [Option.some.injEq, forall_eq']
          rw [← info?_isSome]
          cases info? py metadata <;> simp

theorem source_curated (h : record ∈ curatedRecords py w.catalog) : record.source = .curated := by
  obtain ⟨item, -, hitem⟩ := List.mem_filterMap.mp h
  split at hitem
  · cases hitem
    rfl
  · cases hitem

theorem source_installed (h : record ∈ installedRecords py w.installed) :
    record.source = .installed := by
  obtain ⟨item, -, rfl⟩ := List.mem_map.mp h
  rfl

theorem pypiRecords_cases : pypiRecords py w tokens = []
    ∨ ∃ probe : Probe, pypiRecords py w tokens = [probe.record] := by
  unfold pypiRecords askPypi
  cases probed py w tokens with
  | none => exact Or.inl rfl
  | some token =>
      dsimp only
      cases probePypi py token (w.pypi token) with
      | error e => exact Or.inl rfl
      | ok probe =>
          cases probe with
          | none => exact Or.inl rfl
          | some probe => exact Or.inr ⟨probe, rfl⟩

theorem source_pypi (h : record ∈ pypiRecords py w tokens) :
    record.source = .pypi ∧ ∀ other ∈ pypiRecords py w tokens, other = record := by
  rcases @pypiRecords_cases py w tokens with hnone | ⟨probe, hone⟩
  · rw [hnone] at h
    cases h
  · rw [hone] at h ⊢
    obtain rfl := List.mem_singleton.mp h
    exact ⟨rfl, fun other hother => List.mem_singleton.mp hother⟩

/-- A source has one record of a name. -/
theorem eq_of_source (hdistinct : ((curatedRecords py w.catalog).map fun r => norm py r.name).Nodup)
    (hcanonical : ∀ item ∈ w.installed.items, norm py item.1 = item.1)
    (h : record ∈ consulted py w tokens) (h' : other ∈ consulted py w tokens)
    (hname : norm py record.name = norm py other.name) (hsource : record.source = other.source) :
    record = other := by
  rcases List.mem_append.mp h with h | h
  · rcases List.mem_append.mp h with h | h
    · have hcurated := source_curated h
      rcases List.mem_append.mp h' with h' | h'
      · rcases List.mem_append.mp h' with h' | h'
        · exact List.inj_on_of_nodup_map hdistinct h h' hname
        · rw [hcurated, source_installed h'] at hsource
          cases hsource
      · rw [hcurated, (source_pypi h').1] at hsource
        cases hsource
    · have hinstalled := source_installed h
      rcases List.mem_append.mp h' with h' | h'
      · rcases List.mem_append.mp h' with h' | h'
        · rw [hinstalled, source_curated h'] at hsource
          cases hsource
        · obtain ⟨item, hitem, rfl⟩ := List.mem_map.mp h
          obtain ⟨item', hitem', rfl⟩ := List.mem_map.mp h'
          have hkey : item.1 = item'.1 :=
            (hcanonical item hitem).symm.trans (hname.trans (hcanonical item' hitem'))
          rw [List.inj_on_of_nodup_map w.installed.nodup hitem hitem' hkey]
      · rw [hinstalled, (source_pypi h').1] at hsource
        cases hsource
  · obtain ⟨hpypi, hone⟩ := source_pypi h
    rcases List.mem_append.mp h' with h' | h'
    · rcases List.mem_append.mp h' with h' | h'
      · rw [hpypi, source_curated h'] at hsource
        cases hsource
      · rw [hpypi, source_installed h'] at hsource
        cases hsource
    · exact (hone other h').symm

theorem mem_candidates : hit ∈ candidates py w tokens
    ↔ ∃ record ∈ consulted py w tokens, hit? py tokens w.installed record = some hit :=
  List.mem_filterMap

theorem priority_injective : Function.Injective Source.priority := by
  intro source source' h
  cases source <;> cases source' <;> first | rfl | cases h

/-- No two hits of a name weigh the same. -/
theorem eq_of_weight (hdistinct : ((curatedRecords py w.catalog).map fun r => norm py r.name).Nodup)
    (hcanonical : ∀ item ∈ w.installed.items, norm py item.1 = item.1) :
    ∀ hit ∈ candidates py w tokens, ∀ hit' ∈ candidates py w tokens, hit.key = hit'.key →
      hit.weight = hit'.weight → hit = hit' := by
  intro hit h hit' h' hkey hweight
  obtain ⟨record, hmem, hhit⟩ := mem_candidates.mp h
  obtain ⟨other, hmem', hhit'⟩ := mem_candidates.mp h'
  obtain ⟨hname, -, hentry⟩ := hit?_eq_some.mp hhit
  obtain ⟨hname', -, hentry'⟩ := hit?_eq_some.mp hhit'
  have hsource : record.source = other.source := by
    have hpriority := congrArg (fun weight => (ofLex weight).2) hweight
    have heq : hit.entry.source = hit'.entry.source := priority_injective hpriority
    rwa [hentry, hentry'] at heq
  obtain rfl := eq_of_source hdistinct hcanonical hmem hmem'
    (hname.symm.trans (hkey.trans hname')) hsource
  exact Option.some.inj (hhit.symm.trans hhit')

/-! ## Results -/

/-- Every hit of the table is that of a record. -/
theorem mem_table (h : hit ∈ table py w tokens) :
    hit ∈ candidates py w tokens ∧ ∀ hit' ∈ candidates py w tokens, hit'.key = hit.key →
      hit.weight ≤ hit'.weight :=
  (LightestByKey.lightest_collect (candidates py w tokens)).lightest hit h

theorem key_eq (h : hit ∈ candidates py w tokens) : hit.key = norm py hit.entry.name := by
  obtain ⟨record, -, hhit⟩ := mem_candidates.mp h
  obtain ⟨hname, -, hentry⟩ := hit?_eq_some.mp hhit
  rw [hname, hentry]
  rfl

theorem rank_hit (h : hit ∈ candidates py w tokens) :
    rank py tokens hit.entry.name hit.entry.summary = some hit.rank := by
  obtain ⟨record, -, hhit⟩ := mem_candidates.mp h
  obtain ⟨-, hrank, hentry⟩ := hit?_eq_some.mp hhit
  rw [hentry]
  exact hrank

theorem Hit.le_iff : hit.le hit' = true
    ↔ (toLex (hit.rank, hit.entry.name) : ℕ ×ₗ Codes) ≤ toLex (hit'.rank, hit'.entry.name) := by
  rw [Hit.le, decide_eq_true_iff]

theorem pairwise_sorted (hits : List Hit) :
    (hits.mergeSort Hit.le).Pairwise fun hit hit' => hit.le hit' = true := by
  refine List.pairwise_mergeSort ?_ ?_ hits
  · intro a b c hab hbc
    exact Hit.le_iff.mpr ((Hit.le_iff.mp hab).trans (Hit.le_iff.mp hbc))
  · intro a b
    rw [Bool.or_eq_true, Hit.le_iff, Hit.le_iff]
    exact le_total _ _

/-- The table, sorted. -/
theorem pairwise_results : ((table py w tokens).mergeSort Hit.le).Pairwise fun hit hit' =>
    hit.key ≠ hit'.key ∧ hit.le hit' = true := by
  have hapart := (@LightestByKey.lightest_collect _ _ _ _ _ Hit.key Hit.weight
    (candidates py w tokens)).apart
  have hperm := List.mergeSort_perm (table py w tokens) Hit.le
  have hkeys : ((table py w tokens).mergeSort Hit.le).Pairwise fun hit hit' =>
      hit.key ≠ hit'.key := (hperm.pairwise_iff fun hne => hne.symm).mpr hapart
  exact hkeys.and (pairwise_sorted _)

theorem mem_sorted : hit ∈ (table py w tokens).mergeSort Hit.le ↔ hit ∈ table py w tokens :=
  (List.mergeSort_perm (table py w tokens) Hit.le).mem_iff

theorem exists_hit (hmem : record ∈ consulted py w tokens)
    (h : Matches py tokens record.name record.summary) :
    ∃ hit ∈ candidates py w tokens, hit.key = norm py record.name
      ∧ rank py tokens record.name record.summary = some hit.rank
      ∧ hit.entry.source = record.source := by
  obtain ⟨r, hr⟩ := matches_iff.mp h
  have hhit : hit? py tokens w.installed record = some
      ⟨norm py record.name, r,
        record.entry (norm py record.name ∈ w.installed.items.map Prod.fst)⟩ :=
    hit?_eq_some.mpr ⟨rfl, hr, rfl⟩
  exact ⟨_, mem_candidates.mpr ⟨record, hmem, hhit⟩, rfl, hr, rfl⟩

theorem exact_results :
    Exact py w tokens (((table py w tokens).mergeSort Hit.le).map Hit.entry) where
  once := by
    refine List.pairwise_map.mpr (pairwise_results.imp_of_mem fun hmem hmem' hpair => ?_)
    rw [← key_eq (mem_table (mem_sorted.mp hmem)).1, ← key_eq (mem_table (mem_sorted.mp hmem')).1]
    exact hpair.1
  complete := by
    intro record hmem hmatches
    obtain ⟨hit, hhit, hkey, -⟩ := exists_hit hmem hmatches
    obtain ⟨best, hbest, hsame⟩ := (@LightestByKey.lightest_collect _ _ _ _ _ Hit.key
      Hit.weight (candidates py w tokens)).complete hit hhit
    refine ⟨best.entry, List.mem_map_of_mem (mem_sorted.mpr hbest), ?_⟩
    rw [← key_eq (mem_table hbest).1, hsame, hkey]
  richest := by
    intro e he
    obtain ⟨hit, hhit, rfl⟩ := List.mem_map.mp he
    obtain ⟨hcandidate, hlightest⟩ := mem_table (mem_sorted.mp hhit)
    obtain ⟨record, hmem, hof⟩ := mem_candidates.mp hcandidate
    obtain ⟨hkey, hrank, hentry⟩ := hit?_eq_some.mp hof
    have hmatches : Matches py tokens record.name record.summary := matches_iff.mpr ⟨_, hrank⟩
    refine ⟨record, hmem, hmatches, hentry, fun other hother hname hothers => ?_⟩
    obtain ⟨hit', hhit', hkey', hrank', hsource'⟩ := exists_hit hother hothers
    have hle := hlightest hit' hhit' (hkey'.trans (hname.trans hkey.symm))
    have hranks : hit.rank = hit'.rank := by
      rw [rank_eq hname hothers hmatches, hrank] at hrank'
      exact Option.some.inj hrank'
    rw [Hit.weight, Hit.weight, hranks, Prod.Lex.toLex_le_toLex] at hle
    rcases hle with hlt | ⟨-, hpriority⟩
    · exact absurd hlt (Nat.lt_irrefl _)
    · rwa [hentry, hsource'] at hpriority
  sorted := by
    refine List.pairwise_map.mpr (pairwise_results.imp_of_mem fun hmem hmem' hpair => ?_)
    obtain ⟨hkeys, hle⟩ := hpair
    have hcandidate := (mem_table (mem_sorted.mp hmem)).1
    have hcandidate' := (mem_table (mem_sorted.mp hmem')).1
    refine ⟨_, _, rank_hit hcandidate, rank_hit hcandidate', lt_of_le_of_ne (Hit.le_iff.mp hle) ?_⟩
    intro heq
    have hname := congrArg (fun weight => (ofLex weight).2) heq
    rw [key_eq hcandidate, key_eq hcandidate'] at hkeys
    exact hkeys (congrArg (norm py) hname)

/-! ## The order of the sources -/

theorem SameSources.probed (h : SameSources w w') (tokens : List Codes) :
    probed py w tokens = probed py w' tokens := by
  have hmem : ∀ token, token ∈ (w.catalog.items.map fun item => norm py item.1)
      ↔ token ∈ w'.catalog.items.map fun item => norm py item.1 :=
    fun _ => (h.catalog.map _).mem_iff
  unfold ZpipSearch.probed
  cases tokens with
  | nil => rfl
  | cons token rest =>
      cases rest with
      | cons _ _ => rfl
      | nil => simp only [hmem, h.offline]

theorem SameSources.askPypi (h : SameSources w w') (tokens : List Codes) :
    askPypi py w tokens = askPypi py w' tokens := by
  rw [ZpipSearch.askPypi, ZpipSearch.askPypi, h.probed, h.pypi]

theorem SameSources.candidates (h : SameSources w w') :
    (candidates py w tokens).Perm (candidates py w' tokens) := by
  have hhit : hit? py tokens w.installed = hit? py tokens w'.installed := by
    funext record
    have hmem : norm py record.name ∈ w.installed.items.map Prod.fst
        ↔ norm py record.name ∈ w'.installed.items.map Prod.fst := (h.installed.map _).mem_iff
    simp only [hit?, hmem]
  rw [ZpipSearch.candidates, ZpipSearch.candidates, hhit, consulted, consulted, pypiRecords,
    pypiRecords, h.askPypi]
  exact (((h.catalog.filterMap _).append (h.installed.map _)).append_right _).filterMap _

/-- A search that reads PyPI comes to the same whatever the order. -/
theorem search_same {raw : Codes} {found : List Record} {pypi : PypiStatus}
    (htokens : queryTokens py raw ≠ [])
    (hdistinct : ((curatedRecords py w.catalog).map fun r => norm py r.name).Nodup)
    (hcanonical : ∀ item ∈ w.installed.items, norm py item.1 = item.1)
    (hask : askPypi py w (queryTokens py raw) = .ok (found, pypi)) (hsame : SameSources w w') :
    search py w' raw = search py w raw := by
  have htable : (table py w (queryTokens py raw)).Perm (table py w' (queryTokens py raw)) :=
    LightestByKey.collect_perm hsame.candidates (eq_of_weight hdistinct hcanonical)
  have hsorted : (table py w (queryTokens py raw)).mergeSort Hit.le
      = (table py w' (queryTokens py raw)).mergeSort Hit.le := by
    refine @List.Perm.eq_of_pairwise _ (fun hit hit' => hit.le hit' = true) _ _ ?_
      (pairwise_sorted _) (pairwise_sorted _) ?_
    · intro hit hit' hmem hmem' hle hle'
      have hhit := mem_sorted.mp hmem
      have hhit' := htable.mem_iff.mpr (mem_sorted.mp hmem')
      have hname : hit.entry.name = hit'.entry.name := congrArg (fun weight => (ofLex weight).2)
        (le_antisymm (Hit.le_iff.mp hle) (Hit.le_iff.mp hle'))
      refine (LightestByKey.lightest_collect (candidates py w _)).eq_of_key hhit hhit' ?_
      rw [key_eq (mem_table hhit).1, key_eq (mem_table hhit').1, hname]
    · exact (List.mergeSort_perm ..).trans (htable.trans (List.mergeSort_perm ..).symm)
  have hask' : askPypi py w' (queryTokens py raw) = .ok (found, pypi) :=
    (hsame.askPypi _).symm.trans hask
  rw [search_eq htokens hask, search_eq htokens hask', hsorted, hsame.curatedStatus]

/-- **The results of a search**: one entry for each name that a record
matches, of its richest record, in order; whatever the order of the catalog
and of the installed packages. This is so precisely when the record of
PyPI can be read. -/
theorem search_exact_iff (py : Python) (w : Sources) (raw : Codes)
    (htokens : queryTokens py raw ≠ [])
    (hdistinct : ((curatedRecords py w.catalog).map fun r => norm py r.name).Nodup)
    (hcanonical : ∀ item ∈ w.installed.items, norm py item.1 = item.1) :
    (∃ found, search py w raw = .ok (.found found)
        ∧ Exact py w (queryTokens py raw) found.results
        ∧ ∀ w', SameSources w w' → search py w' raw = .ok (.found found))
      ↔ Readable py w (queryTokens py raw) := by
  rw [← askPypi_ok_iff]
  constructor
  · rintro ⟨found, hsearch, -⟩
    rw [search] at hsearch
    dsimp only at hsearch
    rw [if_neg htokens] at hsearch
    cases hask : askPypi py w (queryTokens py raw) with
    | ok out => exact ⟨out.1, out.2, rfl⟩
    | error e =>
        rw [hask] at hsearch
        cases hsearch
  · rintro ⟨found, pypi, hask⟩
    have heq := search_eq htokens hask
    exact ⟨_, heq, exact_results, fun w' hsame =>
      (search_same htokens hdistinct hcanonical hask hsame).trans heq⟩

/-! A catalog of two packages, of which one is installed, and what PyPI has
under a third name. -/

/-- `str.lower` of ASCII. -/
def asciiLower (text : Codes) : Codes :=
  text.map fun c => if 'A'.toNat ≤ c ∧ c ≤ 'Z'.toNat then c + 32 else c

def asciiPython : Python := ⟨asciiLower, fun _ => [], fun _ => false⟩

def manifest (name summary : String) : Json :=
  .object [(codes "name", .string (codes name)), (codes "summary", .string (codes summary))]

def smallCatalog : Dict where
  items := [(codes "tinydb", manifest "TinyDB" "A tiny database."),
    (codes "http-toolbox", manifest "http_toolbox" "")]
  nodup := by decide

def smallSources (info : Json) : Sources where
  catalog := smallCatalog
  curatedStatus := .cache
  installed := ⟨[(codes "tinydb", .object [])], by decide⟩
  offline := false
  pypi name := if name = codes "tiny" then some [(codes "info", info)] else none

theorem search_smallSources :
    queryTokens asciiPython (codes "tiny") ≠ []
      ∧ ∃ found, search asciiPython (smallSources (manifest "tiny" "")) (codes "tiny")
          = .ok (.found found)
        ∧ Exact asciiPython (smallSources (manifest "tiny" ""))
          (queryTokens asciiPython (codes "tiny")) found.results
        ∧ ∀ w', SameSources (smallSources (manifest "tiny" "")) w' →
          search asciiPython w' (codes "tiny") = .ok (.found found) := by
  refine ⟨by decide, (search_exact_iff asciiPython (smallSources (manifest "tiny" ""))
    (codes "tiny") (by decide) (by decide) (by decide)).mpr ?_⟩
  intro token _ metadata hmetadata v hv _
  simp only [smallSources] at hmetadata
  split at hmetadata
  · obtain rfl := Option.some.inj hmetadata
    exact ⟨_, (Option.some.inj hv).symm⟩
  · cases hmetadata

/-- PyPI has a text as `info`: the search raises. -/
theorem text_info_raises :
    search asciiPython (smallSources (.string (codes "tiny"))) (codes "tiny")
        = .error .attributeError
      ∧ ¬∃ found, search asciiPython (smallSources (.string (codes "tiny"))) (codes "tiny")
        = .ok (.found found) := by
  have hraises : search asciiPython (smallSources (.string (codes "tiny"))) (codes "tiny")
      = .error .attributeError := by decide +kernel
  refine ⟨hraises, fun ⟨found, hfound⟩ => ?_⟩
  rw [hraises] at hfound
  cases hfound

end ZpipSearch

end Zmux
