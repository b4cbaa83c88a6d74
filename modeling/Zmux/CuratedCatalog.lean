import Mathlib.Algebra.Group.Nat.Defs
import Zmux.PipelineOutput
import Zmux.WsControl

/-!
# The curated catalog

`_fetch_curated_catalog` of `zpip.py` asks the index, and where that does
not answer reads what an earlier search has left in a cache file. Whatever
the index does, the file is only as good as the checks on it, and these
stop at the exceptions that a file with no JSON in it raises.

`survives_iff` says for which files the function returns, with a status
that is true. Nothing is assumed about floats.
-/

namespace Zmux

open Json (get?)

namespace CuratedCatalog

/-! ## Python -/

/-- The classes of exceptions the function tells apart. -/
inductive Exc where
  | osError
  | valueError
  | attributeError
  | typeError
  | overflowError
  | recursionError
  | other
deriving DecidableEq

/-- Floats, as far as the function uses them. -/
structure Floats (F : Type*) where
  ofInt : ℤ → F
  /-- The float of a JSON literal. -/
  ofLiteral : List Char → F
  /-- `float` of a string; `none` is the `ValueError`. -/
  ofText : Codes → Option F
  isZero : F → Bool
  sub : F → F → F
  le : F → F → Bool

/-- The limits of an interpreter: the digits of an integer, and the texts
that nest deeper than what is left of the stack. -/
structure Interpreter where
  maxDigits : Option ℕ
  tooDeep : List Char → Bool

/-- `json.loads`. No text nests deeper than it is long. -/
def loads (py : Interpreter) (text : List Char) : Except Exc Json :=
  if py.tooDeep text then .error .recursionError
  else
    match (Json.parse text).filter (Json.within py.maxDigits text.length) with
    | none => .error .valueError
    | some value => .ok value

/-- An integer that is no float even when it is rounded. -/
def tooLarge (n : ℤ) : Bool := 2 ^ 1024 - 2 ^ 970 ≤ n.natAbs

variable {F : Type*} (fl : Floats F)

def truthy : Json → Bool
  | .null => false
  | .bool b => b
  | .int n => n ≠ 0
  | .float literal => !fl.isZero (fl.ofLiteral literal)
  | .string text => !text.isEmpty
  | .array items => !items.isEmpty
  | .object fields => !fields.isEmpty

/-- `float(v)`. -/
def toFloat : Json → Except Exc F
  | .bool b => .ok (fl.ofInt b.toNat)
  | .int n => if tooLarge n then .error .overflowError else .ok (fl.ofInt n)
  | .float literal => .ok (fl.ofLiteral literal)
  | .string text =>
    match fl.ofText text with
    | none => .error .valueError
    | some f => .ok f
  | _ => .error .typeError

/-- `float(v or 0)`. -/
def toFloatOrZero (v : Json) : Except Exc F := toFloat fl (if truthy fl v then v else .int 0)

/-- `read_text(encoding="utf-8")` of a file with these bytes. -/
def readText (bytes : List UInt8) : Except Exc (List Char) :=
  match WsControl.decode bytes with
  | none => .error .valueError
  | some text =>
    let (text, waiting) := translateNewlines false text
    .ok (text ++ if waiting then ['\n'] else [])

/-! ## The function -/

abbrev Packages := List (Codes × Json)

inductive Status where
  | live
  | cache
  | stale
  | unavailable
deriving DecidableEq

/-- What the function meets: the network, the store of a fetched catalog,
the cache file (`none` where it cannot be read) and the clock. -/
structure World (F : Type*) where
  offline : Bool
  request : Except Exc Json
  store : Except Exc Unit
  cacheFile : Option (List UInt8)
  now : F

/-- `CATALOG_TTL_SECONDS`. -/
def catalogTtlSeconds : ℤ := 3600

/-- The first `try` block. -/
def fetchLive (w : World F) : Except Exc Packages :=
  match w.request with
  | .error e => .error e
  | .ok (.object payload) =>
    match get? payload (codes "packages") with
    | some (.object packages) =>
      match w.store with
      | .ok () => .ok packages
      | .error .osError => .ok packages
      | .error e => .error e
    | _ => .error .valueError
  | .ok _ => .error .attributeError

variable (py : Interpreter)

/-- The catalog of a cached value with its age, if there is one. -/
def cachedCatalog (now : F) : Json → Except Exc (Option (Packages × F))
  | .object cached =>
    match get? cached (codes "packages") with
    | some (.object packages) =>
      match toFloatOrZero fl ((get? cached (codes "fetched_at")).getD (.int 0)) with
      | .error e => .error e
      | .ok fetchedAt => .ok (some (packages, fl.sub now fetchedAt))
    | _ => .ok none
  | _ => .error .attributeError

/-- The second `try` block. -/
def readCached (w : World F) : Except Exc (Option (Packages × F)) :=
  match w.cacheFile with
  | none => .error .osError
  | some bytes => ((readText bytes).bind (loads py)).bind (cachedCatalog fl w.now)

/-- `_fetch_curated_catalog` where the index does not answer. -/
def fallBack (w : World F) : Except Exc (Packages × Status) :=
  match readCached fl py w with
  | .ok (some (packages, age)) =>
    .ok (packages, if fl.le age (fl.ofInt catalogTtlSeconds) then .cache else .stale)
  | .ok none => .ok ([], .unavailable)
  | .error .osError => .ok ([], .unavailable)
  | .error .valueError => .ok ([], .unavailable)
  | .error e => .error e

/-- `_fetch_curated_catalog`. -/
def fetchCuratedCatalog (w : World F) : Except Exc (Packages × Status) :=
  if w.offline then fallBack fl py w
  else
    match fetchLive w with
    | .ok packages => .ok (packages, .live)
    | .error _ => fallBack fl py w

/-! ## What is asked of it -/

/-- The index has just answered with these packages. -/
def Fetched (w : World F) (packages : Packages) : Prop :=
  w.offline = false ∧ ∃ payload, w.request = .ok (.object payload)
    ∧ get? payload (codes "packages") = some (.object packages)

/-- What a status says of the packages. -/
def Says (w : World F) (packages : Packages) : Status → Prop
  | .live => Fetched w packages
  | .cache => ∃ age, readCached fl py w = .ok (some (packages, age))
    ∧ fl.le (fl.ofInt 0) age ∧ fl.le age (fl.ofInt catalogTtlSeconds)
  | .stale => True
  | .unavailable => packages = []

/-- The function returns, with a status that is true. -/
def Survives (w : World F) : Prop :=
  ∃ packages status, fetchCuratedCatalog fl py w = .ok (packages, status)
    ∧ Says fl py w packages status

/-- The index answers, and nothing but an `OSError` keeps the answer from
being stored. -/
def Answered (w : World F) : Prop :=
  (∃ packages, Fetched w packages) ∧ (w.store = .ok () ∨ w.store = .error .osError)

/-- A `fetched_at` that gives a float, or nothing but a `ValueError`, and no
time to come. -/
def Timely (now : F) (v : Json) : Prop :=
  (truthy fl v = true → (∀ n, v = .int n → tooLarge n = false)
      ∧ (∀ items, v ≠ .array items) ∧ ∀ fields, v ≠ .object fields)
    ∧ ∀ f, toFloatOrZero fl v = .ok f →
      fl.le (fl.sub now f) (fl.ofInt catalogTtlSeconds) → fl.le (fl.ofInt 0) (fl.sub now f)

/-- A dict, and if it has a dict of packages, with a timely `fetched_at`. -/
def UsableValue (now : F) (value : Json) : Prop :=
  ∃ cached, value = .object cached ∧ ∀ packages,
    get? cached (codes "packages") = some (.object packages) →
      Timely fl now ((get? cached (codes "fetched_at")).getD (.int 0))

/-- The cache file: if it is text, then not one that nests too deep, and if
that is JSON, a usable value. -/
def Usable (w : World F) : Prop :=
  ∀ bytes text, w.cacheFile = some bytes → readText bytes = .ok text →
    py.tooDeep text = false ∧ ∀ value, loads py text = .ok value → UsableValue fl w.now value

/-! ## The network -/

variable {fl py} {w : World F}

theorem fetchLive_eq {payload : Packages} {packages : Packages}
    (hrequest : w.request = .ok (.object payload))
    (hpackages : get? payload (codes "packages") = some (.object packages)) :
    fetchLive w = match w.store with
      | .ok () => .ok packages
      | .error .osError => .ok packages
      | .error e => .error e := by
  rw [fetchLive, hrequest]
  dsimp only
  rw [hpackages]

theorem fetchLive_ok {packages : Packages} (h : fetchLive w = .ok packages) :
    (∃ payload, w.request = .ok (.object payload)
        ∧ get? payload (codes "packages") = some (.object packages))
      ∧ (w.store = .ok () ∨ w.store = .error .osError) := by
  rw [fetchLive] at h
  split at h
  · cases h
  · rename_i payload hrequest
    split at h
    · rename_i found hfound
      split at h
      · rename_i hstore
        cases h
        exact ⟨⟨payload, hrequest, hfound⟩, Or.inl hstore⟩
      · rename_i hstore
        cases h
        exact ⟨⟨payload, hrequest, hfound⟩, Or.inr hstore⟩
      · cases h
    · cases h
  · cases h

/-- The function returns what the index answers, or goes to the cache. -/
theorem fetch_cases (fl : Floats F) (py : Interpreter) (w : World F) :
    (Answered w ∧ ∃ packages, Fetched w packages
        ∧ fetchCuratedCatalog fl py w = .ok (packages, .live))
      ∨ (¬ Answered w ∧ fetchCuratedCatalog fl py w = fallBack fl py w) := by
  by_cases hanswered : Answered w
  · obtain ⟨⟨packages, honline, payload, hrequest, hpackages⟩, hstore⟩ := hanswered
    have hlive : fetchLive w = .ok packages := by
      rw [fetchLive_eq hrequest hpackages]
      rcases hstore with h | h <;> rw [h]
    refine Or.inl ⟨⟨⟨packages, honline, payload, hrequest, hpackages⟩, hstore⟩, packages,
      ⟨honline, payload, hrequest, hpackages⟩, ?_⟩
    rw [fetchCuratedCatalog, honline, hlive]
    rfl
  · refine Or.inr ⟨hanswered, ?_⟩
    rw [fetchCuratedCatalog]
    split
    · rfl
    · rename_i honline
      split
      · rename_i packages hlive
        obtain ⟨⟨payload, hrequest, hpackages⟩, hstore⟩ := fetchLive_ok hlive
        have honline' := Bool.eq_false_iff.mpr honline
        exact absurd ⟨⟨packages, honline', payload, hrequest, hpackages⟩, hstore⟩ hanswered
      · rfl

/-! ## The cache -/

theorem tooLarge_zero : tooLarge 0 = false := by
  have hpos : ∀ m n : ℕ, m < n → ¬ 2 ^ n - 2 ^ m ≤ 0 := fun m n h =>
    Nat.not_le_of_lt (Nat.sub_pos_of_lt (Nat.pow_lt_pow_right (by omega) h))
  exact decide_eq_false (hpos 970 1024 (by omega))

/-- The exceptions that `fetched_at` may raise. -/
theorem toFloatOrZero_error {v : Json} :
    (∀ e, toFloatOrZero fl v = .error e → e = .osError ∨ e = .valueError)
      ↔ (truthy fl v = true → (∀ n, v = .int n → tooLarge n = false)
        ∧ (∀ items, v ≠ .array items) ∧ ∀ fields, v ≠ .object fields) := by
  rw [toFloatOrZero]
  by_cases htruthy : truthy fl v = true
  · rw [if_pos htruthy]
    cases v with
    | null => cases htruthy
    | bool b => simp [toFloat]
    | int n =>
        by_cases hlarge : tooLarge n = true <;> simp [toFloat, hlarge, htruthy]
    | float literal => simp [toFloat]
    | string text =>
        cases htext : fl.ofText text <;> simp [toFloat, htext]
    | array items => simp [toFloat, htruthy]
    | object fields => simp [toFloat, htruthy]
  · rw [if_neg htruthy]
    simp [toFloat, tooLarge_zero, htruthy]

/-- The cache is read, or fails in a way that is caught, and its catalog is
not from a time to come. -/
def Reads (fl : Floats F) (py : Interpreter) (w : World F) : Prop :=
  (∀ e, readCached fl py w = .error e → e = .osError ∨ e = .valueError)
    ∧ ∀ packages age, readCached fl py w = .ok (some (packages, age)) →
      fl.le age (fl.ofInt catalogTtlSeconds) → fl.le (fl.ofInt 0) age

theorem cachedCatalog_object {cached packages : Packages} (now : F)
    (h : get? cached (codes "packages") = some (.object packages)) :
    cachedCatalog fl now (.object cached)
      = match toFloatOrZero fl ((get? cached (codes "fetched_at")).getD (.int 0)) with
        | .error e => .error e
        | .ok fetchedAt => .ok (some (packages, fl.sub now fetchedAt)) := by
  rw [cachedCatalog]
  split
  · rename_i found hfound
    obtain rfl := Json.object.inj (Option.some.inj (hfound.symm.trans h))
    rfl
  · rename_i hnot
    exact absurd h (hnot packages)

/-- Which values give a catalog, or fail in a way that is caught. -/
theorem cachedCatalog_iff (now : F) (value : Json) :
    ((∀ e, cachedCatalog fl now value = .error e → e = .osError ∨ e = .valueError)
        ∧ ∀ packages age, cachedCatalog fl now value = .ok (some (packages, age)) →
          fl.le age (fl.ofInt catalogTtlSeconds) → fl.le (fl.ofInt 0) age)
      ↔ UsableValue fl now value := by
  constructor
  · rintro ⟨herror, hage⟩
    cases value with
    | object cached =>
        refine ⟨cached, rfl, fun packages hpackages => ?_⟩
        have heq := @cachedCatalog_object _ fl _ _ now hpackages
        refine ⟨toFloatOrZero_error.mp fun e he => ?_, fun f hf hle => ?_⟩
        · rw [he] at heq
          exact herror e heq
        · rw [hf] at heq
          exact hage packages _ heq hle
    | _ => exact absurd (herror _ rfl) (by simp)
  · rintro ⟨cached, rfl, htimely⟩
    by_cases hdict : ∃ packages, get? cached (codes "packages") = some (.object packages)
    · obtain ⟨packages, hpackages⟩ := hdict
      obtain ⟨hraises, hage⟩ := htimely packages hpackages
      have heq := @cachedCatalog_object _ fl _ _ now hpackages
      cases hfloat : toFloatOrZero fl ((get? cached (codes "fetched_at")).getD (.int 0)) with
      | error e =>
          rw [hfloat] at heq
          refine ⟨fun e' he' => ?_, fun packages age hok => ?_⟩
          · cases heq.symm.trans he'
            exact toFloatOrZero_error.mpr hraises e hfloat
          · cases heq.symm.trans hok
      | ok f =>
          rw [hfloat] at heq
          refine ⟨fun e' he' => ?_, fun packages age hok => ?_⟩
          · cases heq.symm.trans he'
          · cases heq.symm.trans hok
            exact hage f hfloat
    · have hnone : cachedCatalog fl now (.object cached) = .ok none := by
        rw [cachedCatalog]
        split
        · rename_i found hfound
          exact absurd ⟨found, hfound⟩ hdict
        · rfl
      rw [hnone]
      exact ⟨fun e he => (by cases he), fun packages age hok => (by cases hok)⟩

theorem loads_error {text : List Char} {e : Exc} (h : loads py text = .error e) :
    e = .valueError ∨ e = .recursionError ∧ py.tooDeep text = true := by
  rw [loads] at h
  split at h
  · rename_i hdeep
    cases h
    exact Or.inr ⟨rfl, hdeep⟩
  · split at h
    · cases h
      exact Or.inl rfl
    · cases h

theorem readText_error {bytes : List UInt8} {e : Exc} (h : readText bytes = .error e) :
    e = .valueError := by
  rw [readText] at h
  split at h
  · cases h
    rfl
  · cases h

theorem reads_iff : Reads fl py w ↔ Usable fl py w := by
  rw [Reads, Usable, readCached]
  cases w.cacheFile with
  | none =>
      constructor
      · intro _ bytes text hfile
        cases hfile
      · intro _
        refine ⟨fun e he => ?_, fun packages age hok => ?_⟩
        · cases he
          exact Or.inl rfl
        · cases hok
  | some bytes =>
      dsimp only
      cases htext : readText bytes with
      | error e =>
          obtain rfl := readText_error htext
          constructor
          · intro _ bytes' text hfile hok
            cases hfile
            cases htext.symm.trans hok
          · intro _
            refine ⟨fun e he => ?_, fun packages age hok => ?_⟩
            · cases he
              exact Or.inr rfl
            · cases hok
      | ok text =>
          have husable : (∀ bytes' text', some bytes = some bytes' → readText bytes' = .ok text' →
              py.tooDeep text' = false
                ∧ ∀ value, loads py text' = .ok value → UsableValue fl w.now value)
              ↔ py.tooDeep text = false
                ∧ ∀ value, loads py text = .ok value → UsableValue fl w.now value := by
            constructor
            · exact fun h => h bytes text rfl htext
            · intro h bytes' text' hfile hok
              cases hfile
              cases htext.symm.trans hok
              exact h
          rw [husable, Except.bind]
          cases hdeep : py.tooDeep text with
          | true =>
              have hloads : loads py text = .error .recursionError := by
                rw [loads, if_pos hdeep]
              rw [hloads]
              constructor
              · rintro ⟨herror, -⟩
                exact absurd (herror _ rfl) (by simp)
              · rintro ⟨hfalse, -⟩
                cases hfalse
          | false =>
              cases hloads : loads py text with
              | error e =>
                  have hvalue : e = .valueError := by
                    rcases loads_error hloads with h | ⟨-, h⟩
                    · exact h
                    · cases hdeep.symm.trans h
                  refine ⟨fun _ => ⟨rfl, fun value hok => (by cases hok)⟩, fun _ =>
                    ⟨fun e' he' => ?_, fun packages age hok => (by cases hok)⟩⟩
                  cases he'
                  exact Or.inr hvalue
              | ok value =>
                  refine (cachedCatalog_iff w.now value).trans
                    ⟨fun h => ⟨rfl, fun value' hok => ?_⟩, fun h => h.2 value rfl⟩
                  cases hok
                  exact h

theorem fallBack_survives (h : fetchCuratedCatalog fl py w = fallBack fl py w) :
    Survives fl py w ↔ Reads fl py w := by
  rw [Survives, h, fallBack, Reads]
  cases hread : readCached fl py w with
  | error e =>
      constructor
      · rintro ⟨packages, status, hok, -⟩
        refine ⟨fun e' he' => ?_, fun packages age hage => by cases hage⟩
        cases he'
        cases e with
        | osError => exact Or.inl rfl
        | valueError => exact Or.inr rfl
        | _ => cases hok
      · rintro ⟨herror, -⟩
        refine ⟨[], .unavailable, ?_, rfl⟩
        rcases herror e rfl with rfl | rfl <;> rfl
  | ok found =>
      cases found with
      | none =>
          constructor
          · intro _
            exact ⟨fun e he => (by cases he), fun packages age hage => by cases hage⟩
          · intro _
            exact ⟨[], .unavailable, rfl, rfl⟩
      | some found =>
          obtain ⟨packages, age⟩ := found
          dsimp only
          by_cases hle : fl.le age (fl.ofInt catalogTtlSeconds) = true
          · rw [if_pos hle]
            constructor
            · rintro ⟨packages', status, hok, hsays⟩
              cases hok
              obtain ⟨age', hage', hzero, -⟩ := hsays
              cases hread.symm.trans hage'
              refine ⟨fun e he => (by cases he), fun packages' age' hage' _ => ?_⟩
              cases hage'
              exact hzero
            · rintro ⟨-, hage⟩
              exact ⟨packages, .cache, rfl, age, hread, hage packages age rfl hle, hle⟩
          · rw [if_neg hle]
            constructor
            · intro _
              refine ⟨fun e he => (by cases he), fun packages' age' hage' hle' => ?_⟩
              cases hage'
              exact absurd hle' hle
            · intro _
              exact ⟨packages, .stale, rfl, trivial⟩

/-- **The function returns with a status that is true exactly when the
index answers, or the cache file is usable.** -/
theorem survives_iff (fl : Floats F) (py : Interpreter) (w : World F) :
    Survives fl py w ↔ Answered w ∨ Usable fl py w := by
  rcases fetch_cases fl py w with ⟨hanswered, packages, hfetched, heq⟩ | ⟨hanswered, heq⟩
  · exact ⟨fun _ => Or.inl hanswered, fun _ => ⟨packages, .live, heq, hfetched⟩⟩
  · rw [fallBack_survives heq, reads_iff, or_iff_right hanswered]

/-! A cache file that holds a list, with a clock that goes in whole seconds. -/

/-- Floats that are whole, and small enough to be exact. -/
def wholeSeconds : Floats ℤ where
  ofInt := id
  ofLiteral := fun literal => Nat.ofDigitChars 10 (literal.takeWhile Char.isDigit) 0
  ofText := fun _ => none
  isZero := fun f => f = 0
  sub := fun f g => f - g
  le := fun f g => f ≤ g

def cpython : Interpreter where
  maxDigits := some 4300
  tooDeep := fun _ => false

/-- Offline at the time 1000, with this cache file. -/
def offlineWith (text : String) : World ℤ where
  offline := true
  request := .error .osError
  store := .ok ()
  cacheFile := some (WsControl.encode text.toList)
  now := 1000

theorem readText_encode {text : List Char} (h : '\r' ∉ text) :
    readText (WsControl.encode text) = .ok text := by
  have htranslate : ∀ text : List Char, '\r' ∉ text →
      translateNewlines false text = (text, false) := by
    intro text h
    induction text with
    | nil => rfl
    | cons c text ih =>
        have hc : c ≠ '\r' := fun heq => h (heq ▸ List.mem_cons_self)
        rw [translateNewlines, if_neg hc, ih fun hmem => h (List.mem_cons_of_mem _ hmem)]
        rfl
  rw [readText, WsControl.decode_encode]
  dsimp only
  rw [htranslate text h]
  exact congrArg Except.ok (List.append_nil text)

theorem catalog_raises : ¬ Survives wholeSeconds cpython (offlineWith "[]") := by
  rintro ⟨packages, status, hok, -⟩
  have hraises : fetchCuratedCatalog wholeSeconds cpython (offlineWith "[]")
      = .error .attributeError := by
    rw [fetchCuratedCatalog, fallBack, readCached, offlineWith]
    dsimp only
    rw [readText_encode (by decide)]
    rfl
  cases hraises.symm.trans hok

end CuratedCatalog

end Zmux
