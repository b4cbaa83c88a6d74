import Mathlib.Data.Nat.Digits.Defs
import Zmux.ByteReader
import Zmux.Text
import Zmux.WsControl

/-!
# The keystore

`encrypt_payload` and `decrypt_payload` of `keystore.py`. The keys of a
payload are derived from the master secret of the installation and a fresh
nonce, and the secret is loaded from its file, or made anew, for each
derivation (`loadOrCreateMasterSecret`).

HMAC and PBKDF2 are left uninterpreted. Whatever they are, a payload is
authenticated before it is decrypted (`decrypt_authentic`). That it comes
back for every HMAC and PBKDF2 depends on the file: the two derivations
must find the same secret (`round_trip_iff`). A secret that could not be
stored is lost with the call that made it.
-/

namespace Zmux

namespace Keystore

open Json (get?)

/-! ## Hexadecimal -/

/-- `bytes.hex()`. -/
def hex (bytes : List UInt8) : List Char :=
  bytes.flatMap fun b => [Nat.digitChar (b.toNat / 16), Nat.digitChar (b.toNat % 16)]

/-- The white space `bytes.fromhex` skips between the bytes. -/
def isHexSpace (c : Char) : Bool := c ∈ [' ', '\t', '\n', '\x0b', '\x0c', '\r']

/-- `bytes.fromhex`. -/
def fromHex : List Char → Option (List UInt8)
  | [] => some []
  | c :: cs =>
    if isHexSpace c then fromHex cs
    else
      match cs with
      | [] => none
      | d :: rest => do
        let high ← Json.hexDigit? c
        let low ← Json.hexDigit? d
        let bytes ← fromHex rest
        return (high * 16 + low).toUInt8 :: bytes

/-- A JSON string as Python has it; half of a surrogate pair is no digit. -/
def text (s : Codes) : List Char := s.map Char.ofNat

/-- `str` as a JSON string. -/
def ofText (s : List Char) : Codes := s.map Char.toNat

/-! ## The master secret -/

def masterKeyBytes : ℕ := 32

/-- What becomes of `write_text` of the key file. -/
inductive KeyWrite where
  | written
  /-- An exception, with what it leaves in the file. -/
  | failed (left : Option (List Char))

/-- What a derivation of keys meets: whether the key file can be read,
what becomes of writing it, and the bytes `token_bytes(32)` would draw. -/
structure KeyAccess where
  readable : Bool
  write : KeyWrite
  draw : List UInt8
  length_draw : draw.length = masterKeyBytes

/-- The secret in the text of the key file. -/
def stored (content : Option (List Char)) : Option (List UInt8) :=
  (content.bind fun raw => fromHex (strip raw)).filter fun secret =>
    secret.length = masterKeyBytes

/-- `_load_or_create_master_secret`, and the file after it. -/
def loadOrCreateMasterSecret (access : KeyAccess) (content : Option (List Char)) :
    List UInt8 × Option (List Char) :=
  match if access.readable then stored content else none with
  | some secret => (secret, content)
  | none =>
    match access.write with
    | .written => (access.draw, some (hex access.draw))
    | .failed left => (access.draw, left)

/-! ## Encryption -/

/-- `hashlib.pbkdf2_hmac("sha256", _, _, 200000, dklen=64)` and HMAC-SHA256. -/
structure Primitives where
  pbkdf2 : (secret nonce : List UInt8) → List UInt8
  hmac : (key message : List UInt8) → List UInt8
  length_hmac : ∀ key message, (hmac key message).length = 32

/-- `_derive_keys` from the secret. -/
def deriveKeys (p : Primitives) (secret nonce : List UInt8) : List UInt8 × List UInt8 :=
  let material := p.pbkdf2 secret nonce
  (material.take 32, material.drop 32)

/-- The loop of `_keystream`; each turn adds 32 bytes. -/
def keystreamLoop (p : Primitives) (key : List UInt8) (length : ℕ) :
    (turns counter : ℕ) → (out : List UInt8) → List UInt8
  | 0, _, out => out
  | turns + 1, counter, out =>
    if out.length < length then
      keystreamLoop p key length turns (counter + 1) (out ++ p.hmac key (bigEndian 8 counter))
    else out

/-- `_keystream`. -/
def keystream (p : Primitives) (key : List UInt8) (length : ℕ) : List UInt8 :=
  (keystreamLoop p key length length 0 []).take length

/-- `bytes(a ^ b for a, b in zip(data, stream))`. -/
def xorBytes (data stream : List UInt8) : List UInt8 := List.zipWith (· ^^^ ·) data stream

/-- `json.dumps`, with the separators `","` and `":"` and with the default
ones, the limits of `json.loads`, and whether a float equals an integer. -/
structure JsonModule where
  dumpsCompact : Json → List Char
  dumps : Json → List Char
  limits : Json.Limits
  floatEq : (literal : List Char) → ℤ → Bool

def formatVersion : ℤ := 1

def envelope (nonce ciphertext tag : List UInt8) : Json :=
  .object [(codes "v", .int formatVersion), (codes "nonce", .string (ofText (hex nonce))),
    (codes "data", .string (ofText (hex ciphertext))), (codes "tag", .string (ofText (hex tag)))]

/-- `encrypt_payload` with the nonce it draws; the file after it. -/
def encryptPayload (p : Primitives) (json : JsonModule) (access : KeyAccess)
    (content : Option (List Char)) (nonce : List UInt8) (data : List (Codes × Json)) :
    List Char × Option (List Char) :=
  let plaintext := WsControl.encode (json.dumpsCompact (.object data))
  let (secret, content) := loadOrCreateMasterSecret access content
  let (encKey, macKey) := deriveKeys p secret nonce
  let ciphertext := xorBytes plaintext (keystream p encKey plaintext.length)
  let tag := p.hmac macKey (nonce ++ ciphertext)
  (json.dumps (envelope nonce ciphertext tag), content)

/-! ## Decryption -/

/-- `parsed.get("v") == _FORMAT_VERSION`. -/
def isFormatVersion (json : JsonModule) : Option Json → Bool
  | some (.int n) => n = formatVersion
  | some (.bool b) => b
  | some (.float literal) => json.floatEq literal formatVersion
  | _ => false

/-- `bytes.fromhex(parsed[key])`. -/
def hexField (parsed : List (Codes × Json)) (key : String) : Option (List UInt8) :=
  match get? parsed (codes key) with
  | some (.string s) => fromHex (text s)
  | _ => none

structure Envelope where
  nonce : List UInt8
  ciphertext : List UInt8
  tag : List UInt8

/-- The checks ahead of the derivation of the keys. -/
def parseEnvelope (json : JsonModule) (envelope : List Char) : Option Envelope := do
  let .object parsed ← Json.loads json.limits envelope | none
  if isFormatVersion json (get? parsed (codes "v")) then
    let nonce ← hexField parsed "nonce"
    let ciphertext ← hexField parsed "data"
    let tag ← hexField parsed "tag"
    if nonce.length ≠ 16 ∨ tag.length ≠ 32 then none
    else some ⟨nonce, ciphertext, tag⟩
  else none

/-- The payload in a plaintext; whatever else comes out is `{}`. -/
def payload (json : JsonModule) (plaintext : List UInt8) : List (Codes × Json) :=
  match (WsControl.decode plaintext).bind (Json.loads json.limits) with
  | some (.object data) => data
  | _ => []

/-- `decrypt_payload`; the file after it. -/
def decryptPayload (p : Primitives) (json : JsonModule) (access : KeyAccess)
    (content : Option (List Char)) (envelope : List Char) :
    List (Codes × Json) × Option (List Char) :=
  match parseEnvelope json envelope with
  | none => ([], content)
  | some e =>
    let (secret, content) := loadOrCreateMasterSecret access content
    let (encKey, macKey) := deriveKeys p secret e.nonce
    if p.hmac macKey (e.nonce ++ e.ciphertext) = e.tag then
      (payload json (xorBytes e.ciphertext (keystream p encKey e.ciphertext.length)), content)
    else ([], content)

/-! ## Hexadecimal and back -/

theorem digitChar_toNat {n : ℕ} (h : n < 16) :
    isHexSpace n.digitChar = false ∧ isSpace n.digitChar = false := by
  have : ∀ n < 16, isHexSpace n.digitChar = false ∧ isSpace n.digitChar = false := by decide
  exact this n h

theorem fromHex_hex (bytes : List UInt8) : fromHex (hex bytes) = some bytes := by
  induction bytes with
  | nil => rfl
  | cons b bytes ih =>
      have hhigh : b.toNat / 16 < 16 := Nat.div_lt_of_lt_mul b.toNat_lt
      have hlow : b.toNat % 16 < 16 := Nat.mod_lt _ (by decide)
      have hbyte : (b.toNat / 16 * 16 + b.toNat % 16).toUInt8 = b := by
        rw [Nat.div_add_mod']
        exact UInt8.ofNat_toNat
      have hcons : hex (b :: bytes) = Nat.digitChar (b.toNat / 16)
          :: Nat.digitChar (b.toNat % 16) :: hex bytes := rfl
      rw [hcons, fromHex.eq_def]
      simp only [(digitChar_toNat hhigh).1, Bool.false_eq_true, if_false,
        Json.hexDigit?_digitChar hhigh, Json.hexDigit?_digitChar hlow, ih, Option.bind_eq_bind,
        Option.bind_some, hbyte, Option.pure_def]

theorem strip_hex (bytes : List UInt8) : strip (hex bytes) = hex bytes := by
  refine strip_of_noSpace fun c hc => ?_
  obtain ⟨b, -, hc⟩ := List.mem_flatMap.mp hc
  have hhigh : b.toNat / 16 < 16 := Nat.div_lt_of_lt_mul b.toNat_lt
  have hlow : b.toNat % 16 < 16 := Nat.mod_lt _ (by decide)
  rcases List.mem_cons.mp hc with rfl | hc
  · exact (digitChar_toNat hhigh).2
  · rw [List.mem_singleton.mp hc]
    exact (digitChar_toNat hlow).2

theorem text_ofText (s : List Char) : text (ofText s) = s := by
  rw [text, ofText, List.map_map]
  exact List.map_id'' Char.ofNat_toNat s

/-- A secret that was written is read back. -/
theorem stored_hex {secret : List UInt8} (h : secret.length = masterKeyBytes) :
    stored (some (hex secret)) = some secret := by
  rw [stored, Option.bind_some, strip_hex, fromHex_hex, Option.filter_some,
    if_pos (decide_eq_true h)]

/-! ## The stream cipher -/

theorem length_keystreamLoop {p : Primitives} {key : List UInt8} {length : ℕ} :
    ∀ {turns counter : ℕ} {out : List UInt8}, length ≤ out.length + turns →
      length ≤ (keystreamLoop p key length turns counter out).length
  | 0, _, _, h => h
  | turns + 1, counter, out, h => by
      rw [keystreamLoop]
      split
      · refine length_keystreamLoop ?_
        rw [List.length_append, p.length_hmac]
        omega
      · rename_i henough
        exact Nat.le_of_not_lt henough

theorem length_keystream (p : Primitives) (key : List UInt8) (length : ℕ) :
    (keystream p key length).length = length := by
  rw [keystream, List.length_take]
  exact Nat.min_eq_left (length_keystreamLoop (by rw [List.length_nil, Nat.zero_add]))

theorem length_xorBytes {data stream : List UInt8} (h : stream.length = data.length) :
    (xorBytes data stream).length = data.length := by
  rw [xorBytes, List.length_zipWith, h, Nat.min_self]

/-- The cipher is its own inverse. -/
theorem xorBytes_xorBytes : ∀ {data stream : List UInt8}, stream.length = data.length →
    xorBytes (xorBytes data stream) stream = data
  | [], [], _ => rfl
  | b :: data, k :: stream, h => by
      have htail := xorBytes_xorBytes (Nat.succ.inj h)
      have hhead : b ^^^ k ^^^ k = b := by
        rw [UInt8.xor_assoc, UInt8.xor_self, UInt8.xor_zero]
      show (b ^^^ k ^^^ k) :: xorBytes (xorBytes data stream) stream = b :: data
      rw [hhead, htail]

/-! ## Envelopes -/

/-- `json.loads` reads back what `json.dumps` writes. -/
structure RoundTrips (json : JsonModule) (data : List (Codes × Json)) : Prop where
  payload : Json.loads json.limits (json.dumpsCompact (.object data)) = some (.object data)
  envelope : ∀ nonce ciphertext tag, Json.loads json.limits
    (json.dumps (envelope nonce ciphertext tag)) = some (envelope nonce ciphertext tag)
  empty : json.dumpsCompact (.object []) = ['\x7b', '\x7d']

theorem parseEnvelope_envelope {json : JsonModule} {data : List (Codes × Json)}
    (h : RoundTrips json data) {nonce ciphertext tag : List UInt8} (hnonce : nonce.length = 16)
    (htag : tag.length = 32) :
    parseEnvelope json (json.dumps (envelope nonce ciphertext tag))
      = some ⟨nonce, ciphertext, tag⟩ := by
  have hfield : ∀ bytes, fromHex (text (ofText (hex bytes))) = some bytes := by
    intro bytes
    rw [text_ofText, fromHex_hex]
  rw [parseEnvelope, h.envelope, envelope]
  have hv : isFormatVersion json (get? [(codes "v", .int formatVersion),
      (codes "nonce", .string (ofText (hex nonce))),
      (codes "data", .string (ofText (hex ciphertext))),
      (codes "tag", .string (ofText (hex tag)))] (codes "v")) = true := rfl
  simp only [Option.bind_eq_bind, Option.bind_some, hv, if_true]
  have hn : hexField [(codes "v", .int formatVersion),
      (codes "nonce", .string (ofText (hex nonce))),
      (codes "data", .string (ofText (hex ciphertext))),
      (codes "tag", .string (ofText (hex tag)))] "nonce" = some nonce := hfield nonce
  have hd : hexField [(codes "v", .int formatVersion),
      (codes "nonce", .string (ofText (hex nonce))),
      (codes "data", .string (ofText (hex ciphertext))),
      (codes "tag", .string (ofText (hex tag)))] "data" = some ciphertext := hfield ciphertext
  have ht : hexField [(codes "v", .int formatVersion),
      (codes "nonce", .string (ofText (hex nonce))),
      (codes "data", .string (ofText (hex ciphertext))),
      (codes "tag", .string (ofText (hex tag)))] "tag" = some tag := hfield tag
  rw [hn, hd, ht]
  simp [hnonce, htag]

/-! ## Which secret is found -/

theorem load_fst (access : KeyAccess) (content : Option (List Char)) :
    (loadOrCreateMasterSecret access content).1
      = (if access.readable then stored content else none).getD access.draw := by
  rw [loadOrCreateMasterSecret]
  cases if access.readable then stored content else none with
  | some secret => rfl
  | none => cases access.write <;> rfl

theorem length_load (access : KeyAccess) (content : Option (List Char)) :
    (loadOrCreateMasterSecret access content).1.length = masterKeyBytes := by
  rw [load_fst]
  cases hstored : if access.readable then stored content else none with
  | none => exact access.length_draw
  | some secret =>
      split at hstored
      · exact of_decide_eq_true (Option.filter_eq_some_iff.mp hstored).2
      · cases hstored

/-- The second derivation finds the secret of the first: the file was
valid and could be read both times, or the new secret was written and
could be read; or it is the same by chance. -/
def Persists (first second : KeyAccess) (content : Option (List Char)) : Prop :=
  match if first.readable then stored content else none with
  | some secret => second.readable = true ∨ second.draw = secret
  | none =>
    match first.write with
    | .written => second.readable = true ∨ second.draw = first.draw
    | .failed left => (if second.readable then stored left else none).getD second.draw = first.draw

theorem persists_iff {first second : KeyAccess} {content : Option (List Char)} :
    Persists first second content ↔
      (loadOrCreateMasterSecret second (loadOrCreateMasterSecret first content).2).1
        = (loadOrCreateMasterSecret first content).1 := by
  have hfound : ∀ {left : Option (List Char)} {secret : List UInt8}, stored left = some secret →
      ((second.readable = true ∨ second.draw = secret) ↔
        (if second.readable then stored left else none).getD second.draw = secret) := by
    intro left secret hleft
    cases second.readable with
    | true => simp [hleft]
    | false => simp
  rw [load_fst second, load_fst first, Persists, loadOrCreateMasterSecret]
  cases hread : if first.readable then stored content else none with
  | some secret =>
      split at hread
      · exact hfound hread
      · cases hread
  | none =>
      cases first.write with
      | written => exact hfound (stored_hex first.length_draw)
      | failed left => exact Iff.rfl

/-! ## Decryption of what was encrypted -/

/-- A payload in two bytes can only be `{}`. -/
theorem payload_short (json : JsonModule) {bytes : List UInt8} (h : bytes.length = 2) :
    payload json bytes = [] := by
  rw [payload]
  split
  · rename_i data hdata
    obtain ⟨text, hdecode, hloads⟩ := Option.bind_eq_some_iff.mp hdata
    obtain ⟨hparse, -⟩ := Option.filter_eq_some_iff.mp hloads
    have hbytes : WsControl.encode text = bytes := by
      obtain ⟨chars, hchars, rfl⟩ := Option.map_eq_some_iff.mp hdecode
      have hsome : bytes.toByteArray.utf8Decode?.isSome = true := by rw [hchars]; rfl
      have hencode := ByteArray.utf8Encode_get_utf8Decode? (h := hsome)
      simp only [hchars, Option.get_some] at hencode
      have hlists : (WsControl.encode chars.toList).toByteArray = bytes.toByteArray := hencode
      have hdata := congrArg (fun b => b.data.toList) hlists
      simpa only [List.toList_data_toByteArray] using hdata
    have hle : ∀ t : List Char, t.length ≤ (WsControl.encode t).length := by
      intro t
      induction t with
      | nil => exact Nat.le_refl _
      | cons c t ih =>
          have hpos : 1 ≤ (String.utf8EncodeChar c).length := by
            rw [String.length_utf8EncodeChar]
            exact Char.utf8Size_pos c
          have hcons : WsControl.encode (c :: t)
              = String.utf8EncodeChar c ++ WsControl.encode t := rfl
          rw [hcons, List.length_append, List.length_cons]
          omega
    have htwo := hle text
    rw [hbytes, h] at htwo
    obtain ⟨before, inner, after, rfl, -, -⟩ := Json.parse_braces hparse
    simp only [List.length_append, List.length_cons] at htwo
    obtain rfl := List.length_eq_zero_iff.mp (show before.length = 0 by omega)
    obtain rfl := List.length_eq_zero_iff.mp (show inner.length = 0 by omega)
    obtain rfl := List.length_eq_zero_iff.mp (show after.length = 0 by omega)
    have hempty : Json.parse ['\x7b', '\x7d'] = some (.object []) := by rfl
    exact (Json.object.inj (Option.some.inj (hempty.symm.trans hparse))).symm
  · rfl

section Composed

variable {json : JsonModule} {data : List (Codes × Json)} {first second : KeyAccess}
  {content : Option (List Char)} {nonce : List UInt8}

/-- The payload that comes back from the envelope of another. -/
def reply (p : Primitives) (json : JsonModule) (first second : KeyAccess)
    (content : Option (List Char)) (nonce : List UInt8) (data : List (Codes × Json)) :
    List (Codes × Json) :=
  let (envelope, content) := encryptPayload p json first content nonce data
  (decryptPayload p json second content envelope).1

/-- The ciphertext under the keys of a secret. -/
def ciphertextOf (p : Primitives) (json : JsonModule) (secret nonce : List UInt8)
    (data : List (Codes × Json)) : List UInt8 :=
  let plaintext := WsControl.encode (json.dumpsCompact (.object data))
  xorBytes plaintext (keystream p (deriveKeys p secret nonce).1 plaintext.length)

theorem length_ciphertextOf (p : Primitives) (json : JsonModule) (secret nonce : List UInt8)
    (data : List (Codes × Json)) : (ciphertextOf p json secret nonce data).length
      = (WsControl.encode (json.dumpsCompact (.object data))).length :=
  length_xorBytes (length_keystream ..)

theorem reply_eq (h : RoundTrips json data) (hnonce : nonce.length = 16) (p : Primitives) :
    reply p json first second content nonce data =
      let written := loadOrCreateMasterSecret first content
      let read := loadOrCreateMasterSecret second written.2
      let ciphertext := ciphertextOf p json written.1 nonce data
      if p.hmac (deriveKeys p read.1 nonce).2 (nonce ++ ciphertext)
          = p.hmac (deriveKeys p written.1 nonce).2 (nonce ++ ciphertext) then
        payload json (xorBytes ciphertext
          (keystream p (deriveKeys p read.1 nonce).1 ciphertext.length))
      else [] := by
  rw [reply, encryptPayload]
  dsimp only
  rw [decryptPayload, parseEnvelope_envelope h hnonce (p.length_hmac ..)]
  dsimp only
  split
  · rename_i hmac
    rw [ciphertextOf, if_pos hmac]
  · rename_i hmac
    rw [ciphertextOf, if_neg hmac]

/-- With the same secret the payload comes back. -/
theorem reply_same (h : RoundTrips json data) (hnonce : nonce.length = 16)
    (hsame : Persists first second content) (p : Primitives) :
    reply p json first second content nonce data = data := by
  rw [reply_eq h hnonce]
  dsimp only
  rw [persists_iff.mp hsame, if_pos rfl, length_ciphertextOf, ciphertextOf,
    xorBytes_xorBytes (length_keystream ..), payload, WsControl.decode_encode, Option.bind_some,
    h.payload]

theorem reply_empty (h : RoundTrips json []) (hnonce : nonce.length = 16) (p : Primitives) :
    reply p json first second content nonce [] = [] := by
  have htwo : (WsControl.encode (json.dumpsCompact (.object []))).length = 2 := by
    rw [h.empty]
    rfl
  rw [reply_eq h hnonce]
  dsimp only
  split
  · refine payload_short json ?_
    rw [length_xorBytes (length_keystream ..), length_ciphertextOf, htwo]
  · rfl

/-- An HMAC and a PBKDF2 under which the tag tells the secret. -/
def telling : Primitives where
  pbkdf2 secret _ := List.replicate 32 0 ++ secret
  hmac key _ := (key ++ List.replicate 32 0).take 32
  length_hmac key _ := by simp

theorem telling_hmac {secret : List UInt8} (h : secret.length = masterKeyBytes)
    (nonce message : List UInt8) :
    telling.hmac (deriveKeys telling secret nonce).2 message = secret := by
  have hkey : (deriveKeys telling secret nonce).2 = secret := by
    show (List.replicate 32 0 ++ secret).drop 32 = secret
    rw [List.drop_append_of_le_length (by simp)]
    simp
  rw [hkey]
  have hlength : secret.length = 32 := h
  show (secret ++ List.replicate 32 0).take 32 = secret
  rw [List.take_append_of_le_length hlength.ge, List.take_of_length_le hlength.le]

/-- With another secret it does not, if it is not empty. -/
theorem reply_other (h : RoundTrips json data) (hnonce : nonce.length = 16)
    (hother : ¬Persists first second content) :
    reply telling json first second content nonce data = [] := by
  rw [reply_eq h hnonce]
  dsimp only
  rw [telling_hmac (length_load ..), telling_hmac (length_load ..), if_neg]
  exact fun hsame => hother (persists_iff.mpr hsame)

end Composed

/-! ## Python's `json` on an envelope -/

/-- `json.dumps` of the fields after the first. -/
def dumpsPairs : List (Codes × Json) → List Char
  | [] => ['\x7d']
  | (key, v) :: fields =>
    ',' :: ' ' :: (Json.quote key ++ ':' :: ' ' :: (Json.stringify v ++ dumpsPairs fields))

/-- `json.dumps`, with the default separators, of an object of scalars. -/
def dumps : Json → List Char
  | .object ((key, v) :: fields) =>
    '\x7b' :: (Json.quote key ++ ':' :: ' ' :: (Json.stringify v ++ dumpsPairs fields))
  | v => Json.stringify v

theorem delimited_dumpsPairs (fields : List (Codes × Json)) :
    Json.Delimited (dumpsPairs fields) := by
  cases fields with
  | nil => exact Json.delimited_cons (by decide) _
  | cons field fields => exact Json.delimited_cons (by decide) _

theorem pairs_dumps {key : Codes} (hkey : Json.IsText key) {v : Json} (hv : Json.Written v)
    {fields : List (Codes × Json)} (hfields : ∀ field ∈ fields, Json.IsText field.1 ∧
      Json.Written field.2) :
    Json.Pairs (Json.quote key ++ ':' :: ' ' :: (Json.stringify v ++ dumpsPairs fields))
      ((key, v) :: fields) [] := by
  induction fields generalizing key v with
  | nil =>
      have hvalue := hv _ (delimited_dumpsPairs [])
      have hread := Json.scanString_quote hkey.valid
        (':' :: ' ' :: (Json.stringify v ++ dumpsPairs []))
      rw [← hvalue.skip_eq] at hvalue
      have hpairs := Json.Pairs.last hread (Json.skip_delimiter (by decide) _) hvalue
        (Json.skip_delimiter (by decide) [])
      rw [hkey.joined] at hpairs
      rwa [Json.quote, List.cons_append, List.append_assoc]
  | cons field fields ih =>
      obtain ⟨⟨hnext, hw⟩, hrest⟩ := List.forall_mem_cons.mp hfields
      have hvalue := hv _ (delimited_dumpsPairs (field :: fields))
      have hread := Json.scanString_quote hkey.valid
        (':' :: ' ' :: (Json.stringify v ++ dumpsPairs (field :: fields)))
      have hmore := ih hnext hw hrest
      rw [← hvalue.skip_eq] at hvalue
      rw [← hmore.skip_eq] at hmore
      have hpairs := Json.Pairs.more hread (Json.skip_delimiter (by decide) _) hvalue
        (Json.skip_delimiter (by decide) _) hmore
      rw [hkey.joined] at hpairs
      rwa [Json.quote, List.cons_append, List.append_assoc]

theorem joinSurrogates_of_lt : ∀ {text : Codes}, (∀ n ∈ text, n < 0xd800) →
    Json.joinSurrogates text = text
  | [], _ => rfl
  | [_], _ => rfl
  | high :: low :: rest, h => by
      have hhigh : Json.isHigh high = false := by
        rw [Json.isHigh, decide_eq_false (Nat.not_le_of_lt (h high List.mem_cons_self)),
          Bool.false_and]
      rw [Json.joinSurrogates, hhigh, Bool.false_and, if_neg Bool.false_ne_true,
        joinSurrogates_of_lt fun n hn => h n (List.mem_cons_of_mem high hn)]

theorem isText_hex (bytes : List UInt8) : Json.IsText (ofText (hex bytes)) := by
  have hascii : ∀ n < 16, (Nat.digitChar n).toNat < 128 := by decide
  have hlt : ∀ n ∈ ofText (hex bytes), n < 128 := by
    intro n hn
    obtain ⟨c, hc, rfl⟩ := List.mem_map.mp hn
    obtain ⟨b, -, hc⟩ := List.mem_flatMap.mp hc
    rcases List.mem_cons.mp hc with rfl | hc
    · exact hascii _ (Nat.div_lt_of_lt_mul b.toNat_lt)
    · rw [List.mem_singleton.mp hc]
      exact hascii _ (Nat.mod_lt _ (by decide))
  exact ⟨fun n hn => (hlt n hn).trans (by decide),
    joinSurrogates_of_lt fun n hn => (hlt n hn).trans (by decide)⟩

def cpython : JsonModule where
  dumpsCompact := Json.stringify
  dumps := dumps
  limits := WsControl.cpython.limits
  floatEq _ _ := false

theorem loads_envelope (nonce ciphertext tag : List UInt8) :
    Json.loads cpython.limits (cpython.dumps (envelope nonce ciphertext tag))
      = some (envelope nonce ciphertext tag) := by
  have hkeys : ∀ key ∈ ["v", "nonce", "data", "tag"], Json.IsText (codes key) := by decide
  have hfields : ∀ field ∈ [(codes "nonce", Json.string (ofText (hex nonce))),
      (codes "data", .string (ofText (hex ciphertext))),
      (codes "tag", .string (ofText (hex tag)))],
      Json.IsText field.1 ∧ Json.Written field.2 := by
    have hwritten : ∀ bytes, Json.Written (.string (ofText (hex bytes))) := fun bytes =>
      (Json.Sendable.string (isText_hex bytes)).written
    refine List.forall_mem_cons.mpr ⟨⟨hkeys _ (by simp), hwritten nonce⟩,
      List.forall_mem_cons.mpr ⟨⟨hkeys _ (by simp), hwritten ciphertext⟩,
        List.forall_mem_cons.mpr ⟨⟨hkeys _ (by simp), hwritten tag⟩, nofun⟩⟩⟩
  have hpairs := pairs_dumps (hkeys "v" (by simp)) (Json.Sendable.int formatVersion).written
    hfields
  have hparse : Json.parse (dumps (envelope nonce ciphertext tag))
      = some (envelope nonce ciphertext tag) := by
    refine Json.parse_iff.mpr ⟨by rw [envelope, dumps]; simp, [], ?_, rfl⟩
    rw [← hpairs.skip_eq] at hpairs
    have hvalue := Json.Value.object hpairs
    rw [← hvalue.skip_eq] at hvalue
    exact hvalue
  rw [Json.loads, show cpython.dumps = dumps from rfl, hparse, Option.filter_some, if_pos]
  have hdigits : (Nat.toDigits 10 1).length ≤ 4300 := by decide
  simpa [envelope, Json.within, Json.withinFields, cpython, WsControl.cpython, formatVersion]
    using hdigits

def sample : List (Codes × Json) := [(codes "key", .string (codes "value"))]

theorem roundTrips_sample : RoundTrips cpython sample where
  payload := by
    have hkeys : ∀ field ∈ sample, Json.IsText field.1 := by decide
    have hparse : Json.parse (Json.stringify (.object sample)) = some (.object sample) :=
      Json.parse_stringify (.object hkeys (List.forall_mem_cons.mpr ⟨.string (by decide), nofun⟩))
    rw [Json.loads, show cpython.dumpsCompact = Json.stringify from rfl, hparse,
      Option.filter_some, if_pos]
    simp [sample, Json.within, Json.withinFields, cpython, WsControl.cpython]
  envelope := loads_envelope
  empty := rfl

/-- A call that draws a secret of this byte. -/
def access (readable : Bool) (write : KeyWrite) (byte : UInt8) : KeyAccess :=
  ⟨readable, write, List.replicate 32 byte, List.length_replicate⟩

/-! ## Round trip and authenticity -/

/-- The tag of the envelope is the MAC of its nonce and ciphertext under
the key derived from this secret. -/
def Authentic (p : Primitives) (json : JsonModule) (secret : List UInt8) (envelope : List Char) :
    Prop :=
  ∃ e, parseEnvelope json envelope = some e
    ∧ p.hmac (deriveKeys p secret e.nonce).2 (e.nonce ++ e.ciphertext) = e.tag

/-- Nothing comes out of an envelope that is not authentic. -/
theorem decrypt_authentic {p : Primitives} {json : JsonModule} {access : KeyAccess}
    {content : Option (List Char)} {envelope : List Char}
    (h : (decryptPayload p json access content envelope).1 ≠ []) :
    Authentic p json (loadOrCreateMasterSecret access content).1 envelope := by
  rw [decryptPayload] at h
  cases hparse : parseEnvelope json envelope with
  | none =>
      rw [hparse] at h
      exact absurd rfl h
  | some e =>
      refine ⟨e, hparse, ?_⟩
      by_contra htag
      rw [hparse] at h
      dsimp only at h
      rw [if_neg htag] at h
      exact h rfl

/-- **Round trip and authenticity.** For every HMAC and PBKDF2 the payload
comes back precisely when it is empty or the secret persists; and only an
authentic envelope yields anything. -/
theorem round_trip_iff {json : JsonModule} {data : List (Codes × Json)} {nonce : List UInt8}
    (hjson : RoundTrips json data) (hnonce : nonce.length = 16) (first second : KeyAccess)
    (content : Option (List Char)) :
    ((∀ p, reply p json first second content nonce data = data)
      ↔ data = [] ∨ Persists first second content)
    ∧ ∀ p access content envelope, (decryptPayload p json access content envelope).1 ≠ [] →
        Authentic p json (loadOrCreateMasterSecret access content).1 envelope := by
  refine ⟨⟨fun hreply => ?_, ?_⟩, fun _ _ _ _ h => decrypt_authentic h⟩
  · refine or_iff_not_imp_right.mpr fun hother => ?_
    rw [← hreply telling, reply_other hjson hnonce hother]
  · rintro (rfl | hsame) p
    · exact reply_empty hjson hnonce p
    · exact reply_same hjson hnonce hsame p

/-- A key file that cannot be written, and another secret for the second
call. -/
theorem round_trip_fails :
    ¬∀ p, reply p cpython (access false (.failed none) 1) (access false (.failed none) 2) none
      (List.replicate 16 0) sample = sample := by
  intro h
  have hdraws : List.replicate 32 (2 : UInt8) ≠ List.replicate 32 1 := by decide
  have hnonce : (List.replicate 16 (0 : UInt8)).length = 16 := rfl
  have hempty : reply telling cpython (access false (.failed none) 1)
      (access false (.failed none) 2) none (List.replicate 16 0) sample = [] :=
    reply_other roundTrips_sample hnonce hdraws
  rw [h telling] at hempty
  cases hempty

/-- A new secret that is written and read back. -/
theorem round_trip_new_secret :
    reply telling cpython (access true .written 1) (access true .written 2) none
      (List.replicate 16 0) sample = sample :=
  have hsame : Persists (access true .written 1) (access true .written 2) none := Or.inl rfl
  (round_trip_iff roundTrips_sample rfl _ _ none).1.mpr (Or.inr hsame) telling

end Keystore

end Zmux
