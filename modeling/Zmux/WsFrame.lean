import Zmux.ByteReader

/-!
# The WebSocket frame codec

`_recv_exact`, `_read_frame` and `_send_frame` of `ws_server.py`. The
reader computes the FIN flag of a frame and does not return it, so it has
no part here; what it returns are the opcode and the unmasked payload.

`Frame.exactly` is the contract of the codec for one frame, in each of its
forms: `_read_frame` takes the bytes of the frame from the stream,
however they arrive, and a stream that ends inside of them is an error.
`readFrames_encodeAll` carries it over to any number of frames.
-/

namespace Zmux

namespace Ws

inductive ConnectionError where
  | closed
deriving DecidableEq

def ConnectionError.text : ConnectionError → String
  | .closed => "Connection closed while receiving payload"

abbrev SocketReader := Reader UInt8 ConnectionError

/-! ## Reading -/

/-- The loop of `_recv_exact`. Each turn receives a byte or more, so the
length that was asked for bounds the turns. -/
def recvLoop (length : ℕ) : (turns : ℕ) → (data : List UInt8) → SocketReader (List UInt8)
  | 0, data => pure data
  | turns + 1, data => fun sock =>
    if data.length < length then
      let (chunk, sock) := sock.recv (length - data.length)
      if chunk = [] then .error .closed else recvLoop length turns (data ++ chunk) sock
    else .ok (data, sock)

/-- `_recv_exact`. -/
def recvExact (length : ℕ) : SocketReader (List UInt8) := recvLoop length length []

/-- `_recv_exact(sock, 1)[0]`. -/
def recvByte : SocketReader UInt8 := do
  let data ← recvExact 1
  pure (data.headD 0)

/-- The length, from the seven low bits of the second byte on. -/
def recvLength (payloadLen : UInt8) : SocketReader ℕ :=
  if payloadLen = 126 then do
    let lenBytes ← recvExact 2
    pure (fromBytes lenBytes)
  else if payloadLen = 127 then do
    let lenBytes ← recvExact 8
    pure (fromBytes lenBytes)
  else pure payloadLen.toNat

/-- `bytes(b ^ masking_key[i % 4] for i, b in enumerate(payload))`. -/
def applyMask (key payload : List UInt8) : List UInt8 :=
  payload.mapIdx fun i b => b ^^^ key.getD (i % 4) 0

def recvPayload (masked : Bool) (payloadLen : ℕ) : SocketReader (List UInt8) :=
  if masked then do
    let maskingKey ← recvExact 4
    let payload ← recvExact payloadLen
    pure (applyMask maskingKey payload)
  else recvExact payloadLen

/-- `_read_frame`. -/
def readFrame : SocketReader (UInt8 × List UInt8) := do
  let firstByte ← recvByte
  let opcode := firstByte &&& 0x0f
  let secondByte ← recvByte
  let payloadLen ← recvLength (secondByte &&& 0x7f)
  let payload ← recvPayload (secondByte &&& 0x80 != 0) payloadLen
  pure (opcode, payload)

/-- Successive calls of `_read_frame`. -/
def readFrames : ℕ → SocketReader (List (UInt8 × List UInt8))
  | 0 => pure []
  | n + 1 => do
    let frame ← readFrame
    let frames ← readFrames n
    pure (frame :: frames)

/-! ## Sending -/

/-- The first bytes of a frame. The highest bit of `mark` tells whether
the frame is masked. -/
def header (first mark : UInt8) (payloadLen : ℕ) : Option (List UInt8) :=
  if payloadLen < 126 then some [first, mark ||| payloadLen.toUInt8]
  else if payloadLen ≤ 65535 then
    (toBytes 2 payloadLen).map fun lenBytes => first :: (mark ||| 126) :: lenBytes
  else (toBytes 8 payloadLen).map fun lenBytes => first :: (mark ||| 127) :: lenBytes

/-- What `_send_frame` hands to `sendall`. -/
def sendFrame (opcode : UInt8) (payload : List UInt8) : Option (List UInt8) :=
  (header (0x80 ||| opcode) 0 payload.length).map fun header => header ++ payload

/-- A masking key has four bytes. -/
abbrev Key := { key : List UInt8 // key.length = 4 }

/-- The same frame from a client, who masks it. -/
def maskedFrame (fin : Bool) (key : Key) (opcode : UInt8) (payload : List UInt8) :
    Option (List UInt8) :=
  (header ((if fin then 0x80 else 0) ||| opcode) 0x80 payload.length).map fun header =>
    header ++ key ++ applyMask key payload

/-- Who encodes a frame. -/
inductive Form where
  | server
  | client (fin : Bool) (key : Key)

structure Frame where
  form : Form
  opcode : UInt8
  payload : List UInt8
  opcode_lt : opcode < 16
  payload_lt : payload.length < 2 ^ 64

def Frame.encode (f : Frame) : Option (List UInt8) :=
  match f.form with
  | .server => sendFrame f.opcode f.payload
  | .client fin key => maskedFrame fin key f.opcode f.payload

/-- The frames one after another. -/
def encodeAll : List Frame → Option (List UInt8)
  | [] => some []
  | f :: fs => do
    let bytes ← f.encode
    let rest ← encodeAll fs
    some (bytes ++ rest)

/-! ## The contract of the fields -/

theorem recvLoop_turn {length : ℕ} (turns : ℕ) {data : List UInt8} {s : Chunked UInt8}
    (hdata : data.length < length) (hbytes : s.bytes ≠ []) :
    ∃ size sizes, 0 < size ∧ size ≤ length - data.length ∧
      recvLoop length (turns + 1) data s
        = recvLoop length turns (data ++ s.bytes.take size) ⟨s.bytes.drop size, sizes⟩ := by
  refine ⟨min (length - data.length) (s.sizes 0 + 1), fun i => s.sizes (i + 1),
    by omega, by omega, ?_⟩
  have hchunk : (s.recv (length - data.length)).1 ≠ [] := by
    simp only [Chunked.recv, ne_eq, List.take_eq_nil_iff, hbytes, or_false]
    omega
  rw [recvLoop]
  dsimp only
  rw [if_pos hdata, if_neg hchunk]
  rfl

/-- Reading goes on until all is there, whatever the pieces. -/
theorem recvLoop_exactly (length : ℕ) : ∀ (turns : ℕ) (data bytes : List UInt8),
    bytes.length ≤ turns → data.length + bytes.length = length →
      Exactly (recvLoop length turns data) bytes (data ++ bytes) .closed := by
  intro turns
  induction turns with
  | zero =>
      intro data bytes hturns _
      obtain rfl := List.eq_nil_of_length_eq_zero (Nat.le_zero.mp hturns)
      rw [List.append_nil]
      exact Exactly.pure data _
  | succ turns ih =>
      intro data bytes hturns hlength
      constructor
      · intro rest sizes
        by_cases hbytes : bytes = []
        · subst hbytes
          refine ⟨sizes, ?_⟩
          rw [recvLoop]
          dsimp only
          rw [if_neg (by simpa using Nat.le_of_eq hlength.symm), List.append_nil]
          rfl
        · have hpos := List.length_pos_of_ne_nil hbytes
          obtain ⟨size, sizes', hsize, hle, hturn⟩ := recvLoop_turn turns
            (s := ⟨bytes ++ rest, sizes⟩) (by omega : data.length < length) (by simp [hbytes])
          have hle : size ≤ bytes.length := by omega
          have hrest := ih (data ++ bytes.take size) (bytes.drop size)
            (by rw [List.length_drop]; omega) (by simp; omega)
          rw [List.append_assoc, List.take_append_drop] at hrest
          rw [hturn, List.take_append_of_le_length hle, List.drop_append_of_le_length hle]
          exact hrest.whole rest sizes'
      · rintro front sizes ⟨back, rfl⟩ hne
        have hback : back ≠ [] := fun h => hne (by rw [h, List.append_nil])
        have hpos := List.length_pos_of_ne_nil hback
        rw [List.length_append] at hturns hlength
        by_cases hfront : front = []
        · subst hfront
          rw [recvLoop]
          dsimp only
          rw [if_pos (by omega)]
          simp [Chunked.recv]
        · obtain ⟨size, sizes', hsize, hle, hturn⟩ := recvLoop_turn turns
            (s := ⟨front, sizes⟩) (by omega : data.length < length) hfront
          have hflength := List.length_pos_of_ne_nil hfront
          have hrest := ih (data ++ front.take size) (front.drop size ++ back)
            (by rw [List.length_append, List.length_drop]; omega) (by simp; omega)
          rw [hturn]
          exact hrest.cut _ sizes' (List.prefix_append _ _) (by simpa using hback)

theorem recvExact_exactly (bytes : List UInt8) :
    Exactly (recvExact bytes.length) bytes bytes .closed :=
  recvLoop_exactly bytes.length bytes.length [] bytes (Nat.le_refl _) (by simp)

theorem recvByte_exactly (b : UInt8) : Exactly recvByte [b] b .closed :=
  (recvExact_exactly [b]).bind (Exactly.pure b _)

theorem recvLength_bigEndian {size n : ℕ} (hn : n < 256 ^ size) :
    Exactly (do let lenBytes ← recvExact size; pure (fromBytes lenBytes)) (bigEndian size n) n
      ConnectionError.closed := by
  have hfield := recvExact_exactly (bigEndian size n)
  rw [length_bigEndian] at hfield
  have hnumber := hfield.bind (f := fun lenBytes => pure (fromBytes lenBytes)) (Exactly.pure _ _)
  rw [fromBytes_bigEndian size n hn, List.append_nil] at hnumber
  exact hnumber

/-- The header of every length that fits, and how its length is read. -/
theorem header_eq (first mark : UInt8) {n : ℕ} (hn : n < 2 ^ 64) :
    ∃ low < 128, ∃ lenBytes,
      header first mark n = some (first :: (mark ||| low.toUInt8) :: lenBytes)
      ∧ Exactly (recvLength low.toUInt8) lenBytes n .closed := by
  rw [header]
  split
  · rename_i hsmall
    refine ⟨n, by omega, [], rfl, ?_⟩
    have hbyte : ∀ n < 126, n.toUInt8 ≠ 126 ∧ n.toUInt8 ≠ 127 ∧ n.toUInt8.toNat = n := by decide
    obtain ⟨h126, h127, hvalue⟩ := hbyte n hsmall
    rw [recvLength, if_neg h126, if_neg h127, hvalue]
    exact Exactly.pure n _
  · split
    · rename_i hmedium
      have hfit : n < 256 ^ 2 := by omega
      refine ⟨126, by omega, bigEndian 2 n, by rw [toBytes, if_pos hfit]; rfl, ?_⟩
      exact recvLength_bigEndian hfit
    · have hfit : n < 256 ^ 8 := by omega
      refine ⟨127, by omega, bigEndian 8 n, by rw [toBytes, if_pos hfit]; rfl, ?_⟩
      exact recvLength_bigEndian hfit

/-- Masking twice gives the payload back. -/
theorem applyMask_applyMask (key payload : List UInt8) :
    applyMask key (applyMask key payload) = payload := by
  unfold applyMask
  rw [List.mapIdx_mapIdx]
  refine List.ext_getElem (by simp) fun i _ _ => ?_
  simp only [List.getElem_mapIdx, Function.comp_apply, UInt8.xor_assoc, UInt8.xor_self,
    UInt8.xor_zero]

theorem recvPayload_masked (key : Key) (payload : List UInt8) :
    Exactly (recvPayload true payload.length) (key ++ applyMask key payload) payload .closed := by
  have hkey := recvExact_exactly key.val
  rw [key.property] at hkey
  have hmasked := recvExact_exactly (applyMask key payload)
  rw [applyMask, List.length_mapIdx, ← applyMask] at hmasked
  have hpure := hmasked.bind (f := fun bytes => pure (applyMask key bytes)) (Exactly.pure _ _)
  rw [applyMask_applyMask, List.append_nil] at hpure
  exact hkey.bind hpure

/-! ## The contract of a frame -/

theorem first_byte : ∀ n < 16, ∀ fin ∈ [0x80, 0],
    (fin ||| n.toUInt8) &&& 0x0f = n.toUInt8 := by decide +kernel

theorem second_byte : ∀ low < 128, ∀ mark ∈ [0x80, 0],
    (mark ||| low.toUInt8) &&& 0x7f = low.toUInt8 ∧
      ((mark ||| low.toUInt8) &&& 0x80 != 0) = (mark != 0) := by decide +kernel

/-- The fields one after another, for both values of the masking bit. -/
theorem readFrame_exactly (fin mark : UInt8) {opcode : UInt8} {payload tail : List UInt8}
    (hopcode : opcode < 16) (hfin : fin ∈ [0x80, 0]) (hmark : mark ∈ [0x80, 0])
    (hlength : payload.length < 2 ^ 64)
    (htail : Exactly (recvPayload (mark != 0) payload.length) tail payload .closed) :
    ∃ head, header (fin ||| opcode) mark payload.length = some head ∧
      Exactly readFrame (head ++ tail) (opcode, payload) .closed := by
  obtain ⟨low, hlow, lenBytes, hheader, hlen⟩ := header_eq (fin ||| opcode) mark hlength
  refine ⟨_, hheader, ?_⟩
  have hfirst : (fin ||| opcode) &&& 0x0f = opcode := by
    have h := first_byte opcode.toNat (by simpa using UInt8.lt_iff_toNat_lt.mp hopcode) fin hfin
    rwa [Nat.toUInt8, UInt8.ofNat_toNat] at h
  obtain ⟨hsize, hmasked⟩ := second_byte low hlow mark hmark
  have hpayload := htail.bind (f := fun payload => pure (opcode, payload)) (Exactly.pure _ _)
  rw [← hmasked] at hpayload
  rw [← hsize] at hlen
  have hrest := hlen.bind (f := fun n => recvPayload _ n >>= fun payload => pure (opcode, payload))
    hpayload
  rw [List.append_nil] at hrest
  have hbytes := (recvByte_exactly (fin ||| opcode)).bind (f := fun first =>
    recvByte >>= fun second => recvLength (second &&& 0x7f) >>= fun n =>
      recvPayload (second &&& 0x80 != 0) n >>= fun payload => pure (first &&& 0x0f, payload))
    ((recvByte_exactly (mark ||| low.toUInt8)).bind (by rw [hfirst]; exact hrest))
  exact hbytes

/-- **One frame**, in any of its forms. -/
theorem Frame.exactly (f : Frame) :
    ∃ bytes, f.encode = some bytes ∧ Exactly readFrame bytes (f.opcode, f.payload) .closed := by
  rw [Frame.encode]
  cases hform : f.form with
  | server =>
      obtain ⟨head, hhead, hread⟩ := readFrame_exactly 0x80 0 f.opcode_lt (by decide) (by decide)
        f.payload_lt (recvExact_exactly f.payload)
      exact ⟨_, by rw [sendFrame, hhead]; rfl, hread⟩
  | client fin key =>
      obtain ⟨head, hhead, hread⟩ := readFrame_exactly (if fin then 0x80 else 0) 0x80 f.opcode_lt
        (by cases fin <;> decide) (by decide) f.payload_lt (recvPayload_masked key f.payload)
      have hencode : maskedFrame fin key f.opcode f.payload
          = some (head ++ (key ++ applyMask key f.payload)) := by
        rw [maskedFrame, hhead, ← List.append_assoc]
        rfl
      exact ⟨_, hencode, hread⟩

theorem sendFrame_ne_nil {opcode : UInt8} {payload bytes : List UInt8}
    (h : sendFrame opcode payload = some bytes) : bytes ≠ [] := by
  obtain ⟨head, hhead, rfl⟩ := Option.map_eq_some_iff.mp h
  rw [header] at hhead
  split at hhead
  · obtain rfl := Option.some.inj hhead
    exact List.cons_ne_nil _ _
  · split at hhead <;> obtain ⟨_, -, rfl⟩ := Option.map_eq_some_iff.mp hhead <;>
      exact List.cons_ne_nil _ _

/-! ## Any number of frames -/

theorem readFrames_exactly (frames : List Frame) :
    ∃ bytes, encodeAll frames = some bytes ∧
      Exactly (readFrames frames.length) bytes (frames.map fun f => (f.opcode, f.payload))
        .closed := by
  induction frames with
  | nil => exact ⟨[], rfl, Exactly.pure [] _⟩
  | cons f frames ih =>
      obtain ⟨bytes, hencode, hread⟩ := f.exactly
      obtain ⟨rest, hrest, hreads⟩ := ih
      refine ⟨bytes ++ rest, by rw [encodeAll, hencode, hrest]; rfl, ?_⟩
      have hlist := hreads.bind (f := fun frames => pure ((f.opcode, f.payload) :: frames))
        (Exactly.pure _ _)
      rw [List.append_nil] at hlist
      exact hread.bind hlist

/-- **Frames are read back** one by one from any stream that starts with
them, and a stream cut inside of the next frame is an error. -/
theorem readFrames_encodeAll (frames : List Frame) :
    ∃ bytes, encodeAll frames = some bytes ∧
      (∀ rest sizes, ∃ sizes', readFrames frames.length ⟨bytes ++ rest, sizes⟩
        = .ok (frames.map fun f => (f.opcode, f.payload), ⟨rest, sizes'⟩)) ∧
      ∀ next : Frame, ∃ nextBytes, next.encode = some nextBytes ∧
        ∀ cut sizes, cut <+: nextBytes → cut ≠ nextBytes →
          ∃ sizes', readFrames frames.length ⟨bytes ++ cut, sizes⟩
              = .ok (frames.map fun f => (f.opcode, f.payload), ⟨cut, sizes'⟩) ∧
            readFrame ⟨cut, sizes'⟩ = .error .closed := by
  obtain ⟨bytes, hencode, hread⟩ := readFrames_exactly frames
  refine ⟨bytes, hencode, hread.whole, fun next => ?_⟩
  obtain ⟨nextBytes, hnext, hreadNext⟩ := next.exactly
  refine ⟨nextBytes, hnext, fun cut sizes hcut hne => ?_⟩
  obtain ⟨sizes', hframes⟩ := hread.whole cut sizes
  exact ⟨sizes', hframes, hreadNext.cut cut sizes' hcut hne⟩

/-- A text frame, and a pong that ends after its header. -/
theorem readFrames_encodeAll_cut :
    ∃ sizes', readFrames 1 ⟨[0x81, 2, 0x68, 0x69] ++ [0x8a, 1], fun _ => 0⟩
        = .ok ([(1, [0x68, 0x69])], ⟨[0x8a, 1], sizes'⟩) ∧
      readFrame ⟨[0x8a, 1], sizes'⟩ = .error .closed := by
  obtain ⟨bytes, hbytes, -, hcut⟩ := readFrames_encodeAll
    [⟨.server, 1, [0x68, 0x69], by decide, by decide⟩]
  obtain ⟨nextBytes, hnext, hcut⟩ := hcut ⟨.server, 10, [0x21], by decide, by decide⟩
  obtain rfl : [0x81, 2, 0x68, 0x69] = bytes := Option.some.inj hbytes
  obtain rfl : [0x8a, 1, 0x21] = nextBytes := Option.some.inj hnext
  exact hcut [0x8a, 1] (fun _ => 0) ⟨[0x21], rfl⟩ (by decide)

end Ws

end Zmux
