import Zmux.WsFrame

/-!
# The message loop

The loop of `_handle_client` reads frame by frame: a close frame ends it,
a ping is answered, a text or binary frame is a message, and any other
frame is read over. A continuation frame is one of these: the loop keeps
no state from frame to frame, so of a fragmented message it handles the
first fragment and drops the rest.

A `Message` is a message with its fragmentation: the payload is cut in
any number of parts, and pings may stand before each continuation.
`serve_message_iff` says which of them the loop handles as one message.
-/

namespace Zmux

namespace Ws

/-! ## The loop -/

inductive Event where
  /-- `_handle_client_message` is called. -/
  | message (payload : List UInt8)
  /-- `_send_frame(sock, 10, payload)` is called. -/
  | pong (payload : List UInt8)
deriving DecidableEq

/-- The body of the loop after `_read_frame`; `none` leaves the loop. -/
def handleFrame : UInt8 × List UInt8 → Option (List Event)
  | (opcode, payload) =>
    if opcode = 8 then none
    else if opcode = 9 then some [.pong payload]
    else if opcode ∈ [1, 2] then some [.message payload]
    else some []

/-- The first turns of the loop, while the server runs and the calls
return. -/
def serve : (turns : ℕ) → Chunked UInt8 → List Event
  | 0, _ => []
  | turns + 1, sock =>
    match readFrame sock with
    | .error _ => []
    | .ok (frame, sock) =>
      match handleFrame frame with
      | none => []
      | some events => events ++ serve turns sock

def Event.payload? : Event → Option (List UInt8)
  | .message payload => some payload
  | .pong _ => none

def Event.pong? : Event → Option (List UInt8)
  | .message _ => none
  | .pong payload => some payload

/-! ## Fragmented messages -/

structure Ping where
  key : Key
  payload : List UInt8
  payload_le : payload.length ≤ 125

structure Part where
  key : Key
  payload : List UInt8
  payload_lt : payload.length < 2 ^ 64

/-- A continuation frame, after some pings. -/
structure Continuation where
  pings : List Ping
  part : Part

structure Message where
  binary : Bool
  first : Part
  continuations : List Continuation

def Ping.frame (p : Ping) : Frame where
  form := .client true p.key
  opcode := 9
  payload := p.payload
  opcode_lt := by decide
  payload_lt := Nat.lt_of_le_of_lt p.payload_le (by decide)

def Part.frame (p : Part) (fin : Bool) (opcode : UInt8) (h : opcode < 16) : Frame where
  form := .client fin p.key
  opcode := opcode
  payload := p.payload
  opcode_lt := h
  payload_lt := p.payload_lt

/-- The last continuation has its FIN flag set. -/
def continuationFrames : List Continuation → List Frame
  | [] => []
  | c :: rest =>
    c.pings.map Ping.frame ++ c.part.frame rest.isEmpty 0 (by decide) :: continuationFrames rest

def Message.opcode (m : Message) : UInt8 := if m.binary then 2 else 1

theorem Message.opcode_lt (m : Message) : m.opcode < 16 := by
  rw [Message.opcode]
  cases m.binary <;> decide

def Message.frames (m : Message) : List Frame :=
  m.first.frame m.continuations.isEmpty m.opcode m.opcode_lt :: continuationFrames m.continuations

/-- What comes after the first fragment. -/
def Message.continued (m : Message) : List UInt8 :=
  m.continuations.flatMap fun c => c.part.payload

def Message.payload (m : Message) : List UInt8 := m.first.payload ++ m.continued

def Message.pings (m : Message) : List (List UInt8) :=
  m.continuations.flatMap fun c => c.pings.map Ping.payload

/-- The message is handled once, as a whole, and its pings are answered. -/
def Message.Handled (m : Message) (events : List Event) : Prop :=
  events.filterMap Event.payload? = [m.payload] ∧ events.filterMap Event.pong? = m.pings

instance (m : Message) (events : List Event) : Decidable (m.Handled events) :=
  inferInstanceAs (Decidable (_ ∧ _))

/-! ## What the loop does with them -/

/-- The events of a frame that does not end the loop. -/
def Frame.events (f : Frame) : List Event := (handleFrame (f.opcode, f.payload)).getD []

theorem handleFrame_eq {f : Frame} (h : f.opcode ≠ 8) :
    handleFrame (f.opcode, f.payload) = some f.events := by
  rw [Frame.events, handleFrame, if_neg h]
  split <;> [rfl; (split <;> rfl)]

theorem serve_frame {f : Frame} {bytes : List UInt8}
    (hread : Exactly readFrame bytes (f.opcode, f.payload) .closed) (hclose : f.opcode ≠ 8)
    (rest : List UInt8) (sizes : ℕ → ℕ) :
    ∃ sizes', ∀ turns, serve (turns + 1) ⟨bytes ++ rest, sizes⟩
      = f.events ++ serve turns ⟨rest, sizes'⟩ := by
  obtain ⟨sizes', hframe⟩ := hread.whole rest sizes
  refine ⟨sizes', fun turns => ?_⟩
  rw [serve, hframe]
  dsimp only
  rw [handleFrame_eq hclose]

/-- Frames are served one by one, however their bytes arrive. -/
theorem serve_frames {frames : List Frame} (hclose : ∀ f ∈ frames, f.opcode ≠ 8) :
    ∃ bytes, encodeAll frames = some bytes ∧ ∀ rest sizes, ∃ sizes', ∀ turns,
      serve (turns + frames.length) ⟨bytes ++ rest, sizes⟩
        = frames.flatMap Frame.events ++ serve turns ⟨rest, sizes'⟩ := by
  induction frames with
  | nil => exact ⟨[], rfl, fun rest sizes => ⟨sizes, fun turns => rfl⟩⟩
  | cons f frames ih =>
      obtain ⟨bytes, hencode, hread⟩ := f.exactly
      obtain ⟨more, hmore, hserve⟩ := ih fun g hg => hclose g (List.mem_cons_of_mem _ hg)
      refine ⟨bytes ++ more, by rw [encodeAll, hencode, hmore]; rfl, fun rest sizes => ?_⟩
      have hopcode := hclose f (List.mem_cons_self ..)
      obtain ⟨sizes₁, h₁⟩ := serve_frame hread hopcode (more ++ rest) sizes
      obtain ⟨sizes₂, h₂⟩ := hserve rest sizes₁
      refine ⟨sizes₂, fun turns => ?_⟩
      rw [List.length_cons, ← Nat.add_assoc, List.append_assoc, h₁, h₂, List.flatMap_cons,
        List.append_assoc]

theorem continuationFrames_opcode {cs : List Continuation} :
    ∀ f ∈ continuationFrames cs, f.opcode ≠ 8 := by
  induction cs with
  | nil => exact fun f hf => absurd hf List.not_mem_nil
  | cons c cs ih =>
      intro f hf
      rcases List.mem_append.mp hf with hping | hpart
      · obtain ⟨p, -, rfl⟩ := List.mem_map.mp hping
        exact (by decide : (9 : UInt8) ≠ 8)
      · rcases List.mem_cons.mp hpart with rfl | hrest
        · exact (by decide : (0 : UInt8) ≠ 8)
        · exact ih f hrest

theorem Message.frames_opcode (m : Message) : ∀ f ∈ m.frames, f.opcode ≠ 8 := by
  intro f hf
  rcases List.mem_cons.mp hf with rfl | hrest
  · change m.opcode ≠ 8
    rw [Message.opcode]
    cases m.binary <;> decide
  · exact continuationFrames_opcode f hrest

theorem events_pings (ps : List Ping) :
    (ps.map Ping.frame).flatMap Frame.events = ps.map fun p => .pong p.payload := by
  induction ps with
  | nil => rfl
  | cons p ps ih =>
      rw [List.map_cons, List.flatMap_cons, ih]
      rfl

/-- Continuation frames cause no event. -/
theorem events_continuationFrames (cs : List Continuation) :
    (continuationFrames cs).flatMap Frame.events
      = (cs.flatMap fun c => c.pings.map Ping.payload).map Event.pong := by
  induction cs with
  | nil => rfl
  | cons c cs ih =>
      have hpart (fin : Bool) (h : (0 : UInt8) < 16) : (c.part.frame fin 0 h).events = [] := rfl
      rw [continuationFrames, List.flatMap_append, List.flatMap_cons, events_pings, hpart,
        List.nil_append, ih, List.flatMap_cons, List.map_append, List.map_map]
      rfl

/-- Of a message the loop handles the first fragment. -/
theorem Message.events_eq (m : Message) :
    m.frames.flatMap Frame.events = .message m.first.payload :: m.pings.map Event.pong := by
  rw [Message.frames, List.flatMap_cons, events_continuationFrames]
  have hfirst (fin : Bool) :
      (m.first.frame fin m.opcode m.opcode_lt).events = [.message m.first.payload] := by
    rw [Frame.events]
    change (handleFrame (m.opcode, m.first.payload)).getD [] = _
    rw [Message.opcode]
    cases m.binary <;> rfl
  rw [hfirst]
  rfl

theorem Message.handled_iff (m : Message) :
    m.Handled (m.frames.flatMap Frame.events) ↔ m.continued = [] := by
  have hpayloads : ∀ ps : List (List UInt8), (ps.map Event.pong).filterMap Event.payload? = [] := by
    intro ps
    simp [Event.payload?]
  have hpongs : ∀ ps : List (List UInt8), (ps.map Event.pong).filterMap Event.pong? = ps := by
    intro ps
    simp [Event.pong?, Function.comp_def]
  rw [Message.Handled, m.events_eq, List.filterMap_cons, List.filterMap_cons]
  change m.first.payload :: (m.pings.map Event.pong).filterMap Event.payload? = [m.payload] ∧
    (m.pings.map Event.pong).filterMap Event.pong? = m.pings ↔ m.continued = []
  rw [hpayloads, hpongs, Message.payload]
  constructor
  · rintro ⟨hpayload, -⟩
    exact List.append_right_eq_self.mp (List.singleton_inj.mp hpayload).symm
  · intro hcontinued
    exact ⟨by rw [hcontinued, List.append_nil], rfl⟩

/-- **A message** in fragments, wherever it stands in the stream and
however its bytes arrive, is handled as a whole exactly if all its
fragments after the first are empty. -/
theorem serve_message_iff (m : Message) (rest : List UInt8) (sizes : ℕ → ℕ) :
    ∃ bytes events sizes', encodeAll m.frames = some bytes ∧
      (∀ turns, serve (turns + m.frames.length) ⟨bytes ++ rest, sizes⟩
        = events ++ serve turns ⟨rest, sizes'⟩) ∧
      (m.Handled events ↔ m.continued = []) := by
  obtain ⟨bytes, hencode, hserve⟩ := serve_frames m.frames_opcode
  obtain ⟨sizes', hevents⟩ := hserve rest sizes
  exact ⟨bytes, _, sizes', hencode, hevents, m.handled_iff⟩

/-- Of the text `hi`, sent in two fragments, only the `h` arrives. -/
theorem serve_fragmented :
    let key : Key := ⟨[0, 0, 0, 0], rfl⟩
    let m : Message := ⟨false, ⟨key, [0x68], by decide⟩, [⟨[], ⟨key, [0x69], by decide⟩⟩]⟩
    (encodeAll m.frames).map (fun bytes => serve 2 ⟨bytes, fun _ => 0⟩)
        = some [.message [0x68]] ∧
      m.payload = [0x68, 0x69] ∧ ¬ m.Handled [.message [0x68]] := by
  decide +kernel

end Ws

end Zmux
