import Zmux.PtyInput
import Zmux.VirtualKeys
import Zmux.WsControl
import Zmux.WsMessages

/-!
# From the page to the PTY

The way of what a user types: the page sends a message (`VirtualKeys`), the
browser masks it in a text frame, the loop of `_handle_client` reads the
frames from the socket (`WsMessages`), `_handle_client_message` tells input
from control (`WsControl`), and `write_input` hands the input to the PTY of
the active session (`PtyInput`).

On the whole way nothing is lost, doubled or reordered, and no message is
taken for one of the other kind (`typed_reaches_pty`). That rests on what
each part asks for, which `Delivery.Good` puts together.
-/

namespace Zmux

namespace InputPath

open VirtualKeys (Gesture Keys)
open WsControl (Call Interpreter controlObject encode handleClientMessage sendAction)

/-- The object of `fitTerminal`. -/
def resizeObject (cols rows : ℤ) : List (Codes × Json) :=
  [(codes "action", .string (codes "resize")), (codes "cols", .int cols),
    (codes "rows", .int rows)]

/-- What `ws.send` is given. -/
def payload : VirtualKeys.Message → List UInt8
  | .input text => encode text
  | .resize cols rows => sendAction (resizeObject cols rows)

def inputBytes : VirtualKeys.Message → List UInt8
  | .input text => encode text
  | .resize _ _ => []

def resizeCalls : VirtualKeys.Message → List Call
  | .input _ => []
  | .resize cols rows => [.resize cols rows]

/-- What the server meets while it handles one message: its callees and
the system under `os.write`. -/
structure Surroundings where
  host : WsControl.Host
  osWrite : (data : List UInt8) → PtyInput.OsWrite data

section Server

variable (py : Interpreter)

/-- The calls for the events of the loop, with the surroundings of each
message. -/
def serveCalls : List Ws.Event → List Surroundings → List (Call × Surroundings)
  | .message payload :: events, around :: rest =>
    (handleClientMessage py around.host payload).map (fun call => (call, around))
      ++ serveCalls events rest
  | .pong _ :: events, around => serveCalls events around
  | .message _ :: _, [] | [], _ => []

/-- The calls of `write_input` of the active session. -/
def sessionInput : Call × Surroundings → Option PtyInput.Event
  | (.input payload, around) => some (.input payload around.osWrite)
  | _ => none

def resizes : Call × Surroundings → Option Call
  | (.resize cols rows, _) => some (.resize cols rows)
  | _ => none

end Server

/-- A message of the page, in one masked text frame. -/
structure Delivery extends Surroundings where
  message : VirtualKeys.Message
  key : Ws.Key
  payload_lt : (payload message).length < 2 ^ 64

namespace Delivery

def frame (d : Delivery) : Ws.Frame where
  form := .client true d.key
  opcode := 1
  payload := payload d.message
  opcode_lt := by decide
  payload_lt := d.payload_lt

/-- Input is not the text of a control object, there is an active session,
and the system takes all of it; a resize is handled without an exception. -/
def Good (py : Interpreter) (d : Delivery) : Prop :=
  match d.message with
  | .input text =>
    controlObject (encode text) = none ∧ d.host.active [] = true ∧
      (text = [] ∨ (d.osWrite (encode text)).count = some (encode text).length)
  | .resize cols rows => WsControl.Returns py d.host .resize (resizeObject cols rows)

/-- The calls that the message is for. -/
def calls (d : Delivery) : List Call :=
  match d.message with
  | .input text => [.data (encode text), .input (encode text)]
  | .resize cols rows => [.resize cols rows]

end Delivery

variable {py : Interpreter}

theorem sendable_resizeObject (cols rows : ℤ) :
    Json.Sendable (.object (resizeObject cols rows)) := by
  have hkeys : ∀ key ∈ ["action", "cols", "rows"], Json.IsText (codes key) := by decide
  refine .object (by simpa [resizeObject] using hkeys) fun field hfield => ?_
  simp only [resizeObject, List.mem_cons, List.not_mem_nil, or_false] at hfield
  rcases hfield with rfl | rfl | rfl
  · exact .string (by decide)
  · exact .int cols
  · exact .int rows

theorem perform_resize (host : WsControl.Host) (cols rows : ℤ) :
    (WsControl.perform py host (resizeObject cols rows) .resize).calls = [.resize cols rows] := by
  have hcols : Json.get? (resizeObject cols rows) (codes "cols") = some (.int cols) := by rfl
  have hrows : Json.get? (resizeObject cols rows) (codes "rows") = some (.int rows) := by rfl
  simp only [WsControl.perform, hcols, hrows, Option.getD_some, WsControl.int]
  rfl

/-- One message, whatever it is. -/
theorem Delivery.Good.handled {d : Delivery} (h : d.Good py) :
    handleClientMessage py d.host (payload d.message) = d.calls := by
  rw [Delivery.Good] at h
  rw [Delivery.calls]
  cases hmessage : d.message with
  | input text =>
      rw [hmessage] at h
      obtain ⟨hcontrol, hactive, -⟩ := h
      rw [payload, WsControl.handleClientMessage_of_none hcontrol, hactive]
      rfl
  | resize cols rows =>
      rw [hmessage] at h
      have hobject : controlObject (sendAction (resizeObject cols rows))
          = some (.resize, resizeObject cols rows) :=
        WsControl.controlObject_sendAction (sendable_resizeObject cols rows) (by rfl)
      rw [payload, WsControl.handleClientMessage_of_returns hobject h, perform_resize]

/-- The calls of a run of messages, one after another. -/
theorem serveCalls_deliveries {ds : List Delivery} (h : ∀ d ∈ ds, d.Good py) :
    serveCalls py ((ds.map Delivery.frame).flatMap Ws.Frame.events)
        (ds.map Delivery.toSurroundings)
      = ds.flatMap fun d => d.calls.map fun call => (call, d.toSurroundings) := by
  induction ds with
  | nil => rfl
  | cons d ds ih =>
      obtain ⟨hd, hrest⟩ := List.forall_mem_cons.mp h
      have hevents : d.frame.events = [.message (payload d.message)] := rfl
      rw [List.map_cons, List.map_cons, List.flatMap_cons, List.flatMap_cons, hevents,
        List.cons_append, List.nil_append, serveCalls, hd.handled, ih hrest]

theorem resizes_calls (d : Delivery) :
    (d.calls.map fun call => (call, d.toSurroundings)).filterMap resizes
      = resizeCalls d.message := by
  rw [Delivery.calls]
  cases d.message <;> rfl

section Pty

variable {σ : Type} (handleText : List UInt8 → σ → σ)

/-- Input that the system takes whole is at the master. -/
theorem write_whole {p : PtyInput.RealPty} (hlive : p.exited = false) {data : List UInt8}
    {osWrite : (data : List UInt8) → PtyInput.OsWrite data}
    (h : data = [] ∨ (osWrite data).count = some data.length) :
    (p.write osWrite data).1 = ⟨p.master ++ data, false⟩ := by
  by_cases hdata : data = []
  · subst hdata
    rw [PtyInput.RealPty.write, if_pos (Or.inl rfl), List.append_nil, ← hlive]
  · have hcalled : ¬ (data = [] ∨ p.exited = true) := by simp [hdata, hlive]
    have hcount := h.resolve_left hdata
    rw [PtyInput.RealPty.write, if_neg hcalled]
    cases hwrite : osWrite data with
    | error =>
        rw [hwrite] at hcount
        cases hcount
    | accepted n pos le =>
        rw [hwrite] at hcount
        obtain rfl := Option.some.inj hcount
        simp [hlive]

/-- What one message does to the session. -/
theorem run_calls {d : Delivery} (h : d.Good py) (host : σ) {p : PtyInput.RealPty}
    (hlive : p.exited = false) :
    PtyInput.run handleText (PtyInput.attached host p)
        ((d.calls.map fun call => (call, d.toSurroundings)).filterMap sessionInput)
      = PtyInput.attached host ⟨p.master ++ inputBytes d.message, false⟩ := by
  rw [Delivery.Good] at h
  rw [Delivery.calls]
  cases hmessage : d.message with
  | input text =>
      rw [hmessage] at h
      have hwhole : (p.write d.osWrite (encode text)).1 = ⟨p.master ++ encode text, false⟩ :=
        write_whole hlive (h.2.2.imp (fun htext => by rw [htext]; rfl) id)
      change PtyInput.attached host (p.write d.osWrite (encode text)).1 = _
      rw [hwhole]
      rfl
  | resize cols rows =>
      change PtyInput.attached host p = PtyInput.attached host ⟨p.master ++ [], false⟩
      rw [List.append_nil, ← hlive]

theorem run_deliveries {ds : List Delivery} (h : ∀ d ∈ ds, d.Good py) (host : σ)
    {p : PtyInput.RealPty} (hlive : p.exited = false) :
    PtyInput.run handleText (PtyInput.attached host p)
        ((ds.flatMap fun d => d.calls.map fun call => (call, d.toSurroundings)).filterMap
          sessionInput)
      = PtyInput.attached host
        ⟨p.master ++ (ds.map Delivery.message).flatMap inputBytes, false⟩ := by
  induction ds generalizing p with
  | nil =>
      change PtyInput.attached host p = PtyInput.attached host ⟨p.master ++ [], false⟩
      rw [List.append_nil, ← hlive]
  | cons d ds ih =>
      obtain ⟨hd, hrest⟩ := List.forall_mem_cons.mp h
      rw [List.flatMap_cons, List.filterMap_append, PtyInput.run_append,
        run_calls handleText hd host hlive, ih hrest rfl, List.map_cons, List.flatMap_cons,
        List.append_assoc]

/-- **Typed text reaches the PTY.** The messages of the page for the
gestures of a user, each in a frame of its own, are read and told apart
however the bytes arrive: the master has the texts of the gestures behind
what it had, and the resizes are called in their order. -/
theorem typed_reaches_pty (upperCode : Char → ℕ) {gestures : List Gesture}
    (htypable : ∀ g ∈ gestures, g.Typable) {ds : List Delivery}
    (hsent : (VirtualKeys.ready.run upperCode (gestures.flatMap Gesture.events)).2
      = ds.map Delivery.message)
    (hgood : ∀ d ∈ ds, d.Good py) (host : σ) {p : PtyInput.RealPty} (hlive : p.exited = false)
    (rest : List UInt8) (sizes : ℕ → ℕ) :
    ∃ bytes, Ws.encodeAll (ds.map Delivery.frame) = some bytes ∧
      let calls := serveCalls py (Ws.serve ds.length ⟨bytes ++ rest, sizes⟩)
        (ds.map Delivery.toSurroundings)
      let meant := gestures.flatMap (Gesture.messages upperCode)
      (PtyInput.run handleText (PtyInput.attached host p) (calls.filterMap sessionInput)).master
          = p.master ++ meant.flatMap inputBytes ∧
        calls.filterMap resizes = meant.flatMap resizeCalls := by
  rw [VirtualKeys.run_gestures htypable] at hsent
  have hclose : ∀ f ∈ ds.map Delivery.frame, f.opcode ≠ 8 := by
    intro f hf
    obtain ⟨d, -, rfl⟩ := List.mem_map.mp hf
    exact (by decide : (1 : UInt8) ≠ 8)
  obtain ⟨bytes, hencode, hserve⟩ := Ws.serve_frames hclose
  refine ⟨bytes, hencode, ?_⟩
  obtain ⟨sizes', hturns⟩ := hserve rest sizes
  have hevents := hturns 0
  rw [Nat.zero_add, List.length_map, Ws.serve, List.append_nil] at hevents
  dsimp only at hsent ⊢
  rw [hevents, serveCalls_deliveries hgood, run_deliveries handleText hgood host hlive, hsent]
  refine ⟨rfl, ?_⟩
  rw [List.filterMap_flatMap, List.flatMap_map]
  exact List.flatMap_congr fun d _ => resizes_calls d

/-- The system takes what it is given. -/
def takesAll (data : List UInt8) : PtyInput.OsWrite data :=
  if h : data = [] then .error
  else .accepted data.length (List.length_pos_of_ne_nil h) (Nat.le_refl _)

def around : Surroundings := ⟨WsControl.oneTab, takesAll⟩

/-- Ctrl+C from the soft keyboard, and the device is turned. -/
def interrupt : List Delivery :=
  [⟨around, .input ['\x03'], ⟨[1, 2, 3, 4], rfl⟩, by decide⟩,
    ⟨around, .resize 100 30, ⟨[5, 6, 7, 8], rfl⟩, by decide⟩]

theorem typed_interrupt :
    ∃ bytes, Ws.encodeAll (interrupt.map Delivery.frame) = some bytes ∧
      let calls := serveCalls WsControl.cpython (Ws.serve 2 ⟨bytes ++ [0x88], fun _ => 0⟩)
        (interrupt.map Delivery.toSurroundings)
      (PtyInput.run (fun _ host => host) (PtyInput.attached () ⟨[0x6c], false⟩)
          (calls.filterMap sessionInput)).master = [0x6c, 3] ∧
        calls.filterMap resizes = [.resize 100 30] := by
  have htypable : ∀ g ∈ [Gesture.softKey true ['c'], .turn 100 30], g.Typable := by
    simp [Gesture.Typable, VirtualKeys.utf16Length]
  have hgood : ∀ d ∈ interrupt, d.Good WsControl.cpython := by
    refine List.forall_mem_cons.mpr ⟨⟨?_, ?_, .inr rfl⟩, List.forall_mem_cons.mpr ⟨?_, ?_⟩⟩
    · decide
    · decide
    · exact ⟨by decide, by decide⟩
    · exact fun d hd => absurd hd List.not_mem_nil
  exact typed_reaches_pty (fun _ host => host) (fun c => c.toUpper.toNat) htypable rfl hgood ()
    (p := ⟨[0x6c], false⟩) rfl [0x88] fun _ => 0

end Pty

end InputPath

end Zmux
