import Mathlib.Data.Int.Order.Basic
import Zmux.ZpipWheel

/-!
# The download of a wheel, chunk by chunk

`_download` of `zpip.py` as it runs: the body arrives in chunks of any
length, each is counted, hashed and written, and the size is checked before
anything of the chunk is kept. The server decides what it announces, what it
sends and whether it ever stops.

`fetch_exact` says what the caller and the disk have afterwards, for every
server. `Zmux.download`, the whole body at once, is the same decision
(`fetch_refines`).
-/

namespace Zmux

namespace WheelDownload

/-! ## The loop -/

/-- `hashlib.sha256`: an object that takes the data in pieces. -/
structure Sha (σ : Type) where
  new : σ
  update : σ → List UInt8 → σ
  hexdigest : σ → String
  digest : List UInt8 → String
  pieces : ∀ chunks : List (List UInt8), hexdigest (chunks.foldl update new) = digest chunks.flatten

/-- What a turn of the loop meets. -/
inductive Turn where
  /-- `response.read` returns these bytes. `written` is `none` if
  `output.write` takes them, and how many it has taken if it raises. -/
  | chunk (bytes : List UInt8) (written : Option ℕ)
  /-- `response.read` raises. -/
  | raises

structure Connection where
  /-- The `Content-Length`; `none` if `urlopen` or `int` raises. -/
  announced : Option ℤ
  /-- `destination.open` does not raise. -/
  opens : Bool
  turns : ℕ → Turn

section Loop

variable {σ : Type} (sha : Sha σ)

structure Got (σ : Type) where
  total : ℕ
  hash : σ
  file : List UInt8

def Got.start : Got σ := ⟨0, sha.new, []⟩

def Got.add (got : Got σ) (bytes : List UInt8) : Got σ :=
  ⟨got.total + bytes.length, sha.update got.hash bytes, got.file ++ bytes⟩

/-- The loop, and the error it ends with; `none` after so many turns. -/
def readLoop : (turnsLeft : ℕ) → (ℕ → Turn) → Got σ → Option (Got σ × Option Error)
  | 0, _, _ => none
  | turnsLeft + 1, turns, got =>
    match turns 0 with
    | .raises => some (got, some (.raised .download))
    | .chunk bytes written =>
      if bytes = [] then some (got, none)
      else if maxWheelBytes < got.total + bytes.length then some (got, some .wheelTooLarge)
      else
        match written with
        | none => readLoop turnsLeft (fun k => turns (k + 1)) (got.add sha bytes)
        | some n => some ({ got with file := got.file ++ bytes.take n }, some (.raised .download))

/-- The error before the loop, if there is one. -/
def refusal (url expected : String) (conn : Connection) : Option Error :=
  if !("https://".toList.isPrefixOf url.toList) then some .notHttps
  else if !isSha256 expected then some .invalidSha256
  else
    match conn.announced with
    | none => some (.raised .download)
    | some announced =>
      if maxWheelBytes < announced then some .wheelTooLarge
      else if conn.opens = false then some (.raised .download)
      else none

/-- `_download`: what it returns, and the file at `destination`. -/
def fetch (turnsLeft : ℕ) (url expected : String) (conn : Connection)
    (before : Option (List UInt8)) : Option (Except Error (ℕ × String) × Option (List UInt8)) :=
  match refusal url expected conn with
  | some error => some (.error error, before)
  | none =>
    match readLoop sha turnsLeft conn.turns (Got.start sha) with
    | none => none
    | some (got, some error) => some (.error error, some got.file)
    | some (got, none) =>
      let actual := sha.hexdigest got.hash
      if actual ≠ expected then some (.error (.sha256Mismatch expected actual), none)
      else some (.ok (got.total, actual), some got.file)

end Loop

/-! ## Bodies -/

/-- The turns bring this body to its end. -/
inductive Body : (ℕ → Turn) → List UInt8 → Prop where
  | last {turns : ℕ → Turn} {written : Option ℕ} : turns 0 = .chunk [] written → Body turns []
  | more {turns : ℕ → Turn} {bytes rest : List UInt8} : turns 0 = .chunk bytes none →
      bytes ≠ [] → Body (fun k => turns (k + 1)) rest → Body turns (bytes ++ rest)

variable {σ : Type} {sha : Sha σ} {turns : ℕ → Turn} {got got' : Got σ} {body : List UInt8}

theorem Body.unique {body' : List UInt8} (h : Body turns body) (h' : Body turns body') :
    body = body' := by
  induction h generalizing body' with
  | last hturn =>
      cases h' with
      | last _ => rfl
      | more hturn' hne _ =>
          obtain rfl := (Turn.chunk.inj (hturn.symm.trans hturn')).1
          exact absurd rfl hne
  | more hturn hne _ ih =>
      cases h' with
      | last hturn' =>
          obtain rfl := (Turn.chunk.inj (hturn.symm.trans hturn')).1
          exact absurd rfl hne
      | more hturn' _ hrest =>
          obtain rfl := (Turn.chunk.inj (hturn.symm.trans hturn')).1
          rw [ih hrest]

/-- Every turn that goes on takes a byte or more, so the loop ends, and the
file has never grown beyond the limit. -/
theorem readLoop_ends {turnsLeft : ℕ} (htotal : got.total = got.file.length)
    (hle : got.total ≤ maxWheelBytes) (hturns : maxWheelBytes < got.total + turnsLeft) :
    ∃ got' ended, readLoop sha turnsLeft turns got = some (got', ended) ∧
      got'.file.length ≤ maxWheelBytes := by
  induction turnsLeft generalizing turns got with
  | zero => exact absurd hturns (Nat.not_lt.mpr hle)
  | succ turnsLeft ih =>
      have hfile : got.file.length ≤ maxWheelBytes := htotal ▸ hle
      rw [readLoop]
      split
      · exact ⟨got, _, rfl, hfile⟩
      · rename_i bytes written _
        split_ifs with hnil hlarge
        · exact ⟨got, none, rfl, hfile⟩
        · exact ⟨got, _, rfl, hfile⟩
        · have hpos := List.length_pos_of_ne_nil hnil
          split
          · refine ih ?_ (Nat.not_lt.mp hlarge) ?_
            · simp [Got.add, htotal]
            · simp only [Got.add]
              omega
          · refine ⟨_, _, rfl, ?_⟩
            simp only [List.length_append, List.length_take]
            omega

/-- A loop that ends without an error has had a whole body. -/
theorem body_of_readLoop {turnsLeft : ℕ}
    (h : readLoop sha turnsLeft turns got = some (got', none)) :
    ∃ chunks : List (List UInt8), Body turns chunks.flatten ∧
      got'.total = got.total + chunks.flatten.length ∧
      got'.hash = chunks.foldl sha.update got.hash ∧ got'.file = got.file ++ chunks.flatten := by
  induction turnsLeft generalizing turns got with
  | zero => cases h
  | succ turnsLeft ih =>
      rw [readLoop] at h
      split at h
      · cases h
      · rename_i bytes written hturn
        by_cases hnil : bytes = []
        · rw [if_pos hnil] at h
          obtain rfl := (Prod.mk.inj (Option.some.inj h)).1
          subst hnil
          exact ⟨[], .last hturn, by simp, rfl, by simp⟩
        · rw [if_neg hnil] at h
          split at h
          · cases h
          split at h
          · obtain ⟨chunks, hbody, htotal, hhash, hfile⟩ := ih h
            refine ⟨bytes :: chunks, .more hturn hnil hbody, ?_, hhash, ?_⟩
            · simp [htotal, Got.add, Nat.add_assoc]
            · simp [hfile, Got.add]
          · cases h

/-- A body that fits is read to its end. -/
theorem readLoop_of_body {turnsLeft : ℕ} (hbody : Body turns body)
    (hfits : got.total + body.length ≤ maxWheelBytes) (hturns : body.length < turnsLeft) :
    ∃ got', readLoop sha turnsLeft turns got = some (got', none) := by
  induction hbody generalizing got turnsLeft with
  | last hturn =>
      obtain ⟨k, rfl⟩ := Nat.exists_eq_add_of_lt hturns
      exact ⟨got, by simp [readLoop, hturn]⟩
  | @more turns bytes rest hturn hne _ ih =>
      obtain ⟨k, rfl⟩ := Nat.exists_eq_add_of_lt hturns
      have hpos := List.length_pos_of_ne_nil hne
      rw [List.length_append] at hfits
      have hlarge : ¬ maxWheelBytes < got.total + bytes.length := by omega
      rw [readLoop, hturn]
      simp only [hne, hlarge, if_false]
      refine ih ?_ ?_
      · simp only [Got.add]
        omega
      · rw [List.length_append]
        omega

/-- A body that does not fit is refused. -/
theorem readLoop_of_large {turnsLeft : ℕ} (hbody : Body turns body)
    (hle : got.total ≤ maxWheelBytes) (hlarge : maxWheelBytes < got.total + body.length)
    (hturns : maxWheelBytes < got.total + turnsLeft) :
    ∃ got', readLoop sha turnsLeft turns got = some (got', some .wheelTooLarge) := by
  induction hbody generalizing got turnsLeft with
  | last _ => exact absurd hlarge (Nat.not_lt.mpr hle)
  | @more turns bytes rest hturn hne _ ih =>
      cases turnsLeft with
      | zero => exact absurd hturns (Nat.not_lt.mpr hle)
      | succ turnsLeft =>
          have hpos := List.length_pos_of_ne_nil hne
          rw [List.length_append] at hlarge
          rw [readLoop, hturn]
          by_cases hover : maxWheelBytes < got.total + bytes.length
          · exact ⟨got, by simp [hne, hover]⟩
          · simp only [hne, hover, if_false]
            refine ih (Nat.not_lt.mp hover) ?_ ?_
            · simp only [Got.add]
              omega
            · simp only [Got.add]
              omega

/-! ## The download -/

/-- So many turns are enough. -/
def enoughTurns : ℕ := maxWheelBytes + 1

theorem start_ends (turns : ℕ → Turn) :
    ∃ got ended, readLoop sha enoughTurns turns (Got.start sha) = some (got, ended) ∧
      got.file.length ≤ maxWheelBytes :=
  readLoop_ends rfl (Nat.zero_le _) (by simp [Got.start, enoughTurns])

/-- What the loop says of the digest and the length, at its end. -/
theorem start_body {turnsLeft : ℕ}
    (h : readLoop sha turnsLeft turns (Got.start sha) = some (got, none)) :
    Body turns got.file ∧ got.total = got.file.length ∧
      sha.hexdigest got.hash = sha.digest got.file := by
  obtain ⟨chunks, hbody, htotal, hhash, hfile⟩ := body_of_readLoop h
  have hfile : got.file = chunks.flatten := hfile
  refine ⟨hfile ▸ hbody, ?_, ?_⟩
  · rw [htotal, hfile]
    exact Nat.zero_add _
  · rw [hhash, hfile]
    exact sha.pieces chunks

/-- What `_download` has returned is of a whole body with the expected
digest, and the file is this body. -/
theorem fetch_ok {turnsLeft total : ℕ} {url expected actual : String} {conn : Connection}
    {before file : Option (List UInt8)}
    (h : fetch sha turnsLeft url expected conn before = some (.ok (total, actual), file)) :
    ∃ body, Body conn.turns body ∧ file = some body ∧ total = body.length ∧ actual = expected ∧
      sha.digest body = expected := by
  rw [fetch] at h
  split at h
  · cases h
  · split at h
    · cases h
    · cases h
    · rename_i got hloop
      obtain ⟨hbody, htotal, hdigest⟩ := start_body hloop
      dsimp only at h
      split_ifs at h with hdiffers
      · cases h
      · have hsame : sha.hexdigest got.hash = expected := not_not.mp hdiffers
        obtain ⟨hresult, rfl⟩ := Prod.mk.inj (Option.some.inj h)
        obtain ⟨rfl, rfl⟩ := Prod.mk.inj (Except.ok.inj hresult)
        exact ⟨got.file, hbody, rfl, htotal, hsame, hdigest.symm.trans hsame⟩

theorem fetch_ends (sha : Sha σ) (url expected : String) (conn : Connection)
    (before : Option (List UInt8)) :
    ∃ result file, fetch sha enoughTurns url expected conn before = some (result, file) ∧
      (file = before ∨ ∀ content, file = some content → content.length ≤ maxWheelBytes) := by
  rw [fetch]
  cases refusal url expected conn with
  | some error => exact ⟨_, _, rfl, .inl rfl⟩
  | none =>
      obtain ⟨got, ended, hloop, hsize⟩ := @start_ends _ sha conn.turns
      have hwritten (content : List UInt8) (h : some got.file = some content) :
          content.length ≤ maxWheelBytes := Option.some.inj h ▸ hsize
      dsimp only
      rw [hloop]
      cases ended with
      | some error => exact ⟨_, _, rfl, .inr hwritten⟩
      | none =>
          dsimp only
          split_ifs
          · exact ⟨_, _, rfl, .inr fun _ h => by cases h⟩
          · exact ⟨_, _, rfl, .inr hwritten⟩

/-- **The download**, from any server: it ends; what it returns is the length
and the digest of the body, which is the file and has the expected digest;
and no more than the limit is ever written, also to a file that is removed
for its digest. -/
theorem fetch_exact (sha : Sha σ) (url expected : String) (conn : Connection)
    (before : Option (List UInt8)) :
    ∃ result file, fetch sha enoughTurns url expected conn before = some (result, file) ∧
      (∀ total actual, result = .ok (total, actual) → ∃ body, Body conn.turns body ∧
        file = some body ∧ total = body.length ∧ actual = expected ∧ sha.digest body = expected) ∧
      (file = before ∨ ∀ content, file = some content → content.length ≤ maxWheelBytes) ∧
      ∀ got ended, readLoop sha enoughTurns conn.turns (Got.start sha) = some (got, ended) →
        got.file.length ≤ maxWheelBytes := by
  obtain ⟨result, file, hfetch, hsize⟩ := fetch_ends sha url expected conn before
  refine ⟨result, file, hfetch, ?_, hsize, ?_⟩
  · rintro total actual rfl
    exact fetch_ok hfetch
  · intro got ended hloop
    obtain ⟨got', ended', hends, hwritten⟩ := @start_ends _ sha conn.turns
    obtain ⟨rfl, -⟩ := Prod.mk.inj (Option.some.inj (hloop.symm.trans hends))
    exact hwritten

/-- **Refinement**: where a server sends a body to its end, the caller has
what the model of the whole body has, the file is that body, and it is gone
if its digest is another one. -/
theorem fetch_refines {env : Env} {t : Txn} {url expected : String} {conn : Connection}
    {announced : ℤ} {archive : Option (List Member)} {before : Option (List UInt8)}
    (hbody : Body conn.turns body) (hannounced : conn.announced = some announced)
    (hopens : conn.opens = true)
    (hfetch : env.fetch t url = some ⟨announced.toNat, body.length, sha.digest body, archive⟩)
    (hfault : env.fault t .download = false) :
    ∃ result file, fetch sha enoughTurns url expected conn before = some (result, file) ∧
      result = (download env t url expected).map (fun r => (r.size, r.sha256)) ∧
      (∀ done, result = .ok done → file = some body) ∧
      (∀ actual, result = .error (.sha256Mismatch expected actual) → file = none) := by
  have hlimit : (maxWheelBytes : ℤ) < announced ↔ maxWheelBytes < announced.toNat := by
    simp [Int.lt_toNat]
  have hrefused : refusal url expected conn
      = if !("https://".toList.isPrefixOf url.toList) then some .notHttps
        else if !isSha256 expected then some .invalidSha256
        else if maxWheelBytes < announced.toNat then some .wheelTooLarge else none := by
    simp only [refusal, hannounced, hopens, hlimit, Bool.true_eq_false, if_false]
  have hstart : (Got.start sha).total + body.length = body.length := Nat.zero_add _
  have hno (done : ℕ × String) (error : Error) (file : Option (List UInt8))
      (h : (.error error : Except Error (ℕ × String)) = .ok done) : file = some body := by cases h
  rw [fetch, hrefused, download, hfetch, hfault]
  simp only [Bool.false_eq_true, if_false]
  split_ifs with hhttps hsha hannounced' hlarge hdiffers
  · exact ⟨_, _, rfl, rfl, (hno · _ _), fun _ h => by cases h⟩
  · exact ⟨_, _, rfl, rfl, (hno · _ _), fun _ h => by cases h⟩
  · exact ⟨_, _, rfl, rfl, (hno · _ _), fun _ h => by cases h⟩
  · obtain ⟨got, hloop⟩ := @readLoop_of_large _ sha _ (Got.start sha) _ enoughTurns hbody
      (Nat.zero_le _) (by rw [hstart]; exact hlarge) (by simp [Got.start, enoughTurns])
    dsimp only
    rw [hloop]
    exact ⟨_, _, rfl, rfl, (hno · _ _), fun _ h => by cases h⟩
  all_goals
    obtain ⟨got, hloop⟩ := @readLoop_of_body _ sha _ (Got.start sha) _ enoughTurns hbody
      (by rw [hstart]; exact Nat.not_lt.mp hlarge) (by simp only [enoughTurns]; omega)
    obtain ⟨hread, htotal, hdigest⟩ := start_body hloop
    obtain hfile : got.file = body := hread.unique hbody
    dsimp only
    rw [hloop]
    dsimp only
    rw [hdigest, hfile]
  · rw [if_pos hdiffers]
    exact ⟨_, _, rfl, rfl, (hno · _ _), fun _ _ => rfl⟩
  · rw [if_neg hdiffers]
    exact ⟨_, _, rfl, by rw [htotal, hfile]; rfl, fun _ _ => rfl, fun _ h => by cases h⟩

/-- The digest of `abc`. -/
def abcDigest : String := "ba7816bf8f01cfea414140de5dae2223b00361a396177a9cb410ff61f20015ad"

/-- A digest that is right for `abc`. -/
def abcSha : Sha (List UInt8) where
  new := []
  update data bytes := data ++ bytes
  hexdigest data := if data = [0x61, 0x62, 0x63] then abcDigest else ""
  digest data := if data = [0x61, 0x62, 0x63] then abcDigest else ""
  pieces chunks := by
    have hdata : ∀ (data : List UInt8), chunks.foldl (· ++ ·) data = data ++ chunks.flatten := by
      induction chunks with
      | nil => simp
      | cons bytes chunks ih => simp [ih]
    rw [hdata, List.nil_append]

def abcTurns : ℕ → Turn
  | 0 => .chunk [0x61] none
  | 1 => .chunk [0x62, 0x63] none
  | _ => .chunk [] none

def abcEnv : Env where
  packaging := ⟨fun _ => none, fun _ => true, fun _ _ => true⟩
  runtimeId := "r"
  abi := "a"
  curated _ := none
  pypi _ _ _ := none
  fetch _ _ := some ⟨3, 3, abcDigest, none⟩
  fault _ _ := false
  copied _ _ := none
  order _ l := l
  order_perm _ l := .refl l

theorem fetch_abc :
    ∃ result file, fetch abcSha enoughTurns "https://host/abc" abcDigest
        ⟨some 3, true, abcTurns⟩ none = some (result, file) ∧
      result = (download abcEnv 0 "https://host/abc" abcDigest).map (fun r => (r.size, r.sha256)) ∧
      (∀ done, result = .ok done → file = some [0x61, 0x62, 0x63]) ∧
      (∀ actual, result = .error (.sha256Mismatch abcDigest actual) → file = none) := by
  have hbody : Body abcTurns ([0x61] ++ ([0x62, 0x63] ++ [])) :=
    .more rfl (by simp) (.more rfl (by simp) (.last rfl))
  exact @fetch_refines _ abcSha _ abcEnv 0 _ _ ⟨some 3, true, abcTurns⟩ 3 none none hbody rfl rfl
    rfl rfl

end WheelDownload

end Zmux
