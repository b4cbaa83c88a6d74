import Zmux.Geometry
import Zmux.JsonWrite
import Zmux.Text

/-!
# Control messages

A message from the frontend is terminal input or a control action, and
nothing but its text tells which: `_handle_client_message` takes the text
of a JSON object whose `action` it knows as control, and all else as
input. `demultiplex` says so for every payload.

What an action calls may raise. A session action catches a `ValueError`
and shows it, and any other exception ends in `except Exception: pass`:
the message, known as control and perhaps half handled, goes on as input
(`input_of_not_returns`). With the manager's tabs as they are reached by
resizes that fit in 16 bits, this does not happen to actions with fields
that convert (`control_is_never_input`).

The callbacks are those of the manager, which `run_server` registers
before it serves the page.
-/

namespace Zmux

namespace WsControl

open Json (get? loads)

/-! ## Calls -/

/-- What the handler calls. -/
inductive Call where
  /-- `on_data_callback`. -/
  | data (payload : List UInt8)
  /-- `write_input` of the active session, by the callback. -/
  | input (payload : List UInt8)
  /-- `on_resize_callback`. -/
  | resize (cols rows : ℤ)
  | create
  | switch (sessionId : Codes)
  | close (sessionId : Codes)
  | togglePty
  | broadcast (text : Codes)
  | sendSessionsState
deriving DecidableEq

/-- The payload, or part of it, is on its way to a session. -/
def Call.isInput : Call → Bool
  | .data _ | .input _ => true
  | _ => false

/-- How a call ends: a `ValueError` comes with its text. -/
inductive Outcome (α : Type) where
  | returned (a : α)
  | valueError (error : Codes)
  | raised
deriving DecidableEq

/-- The calls made up to the end, and the end. -/
structure Run (α : Type) where
  calls : List Call
  outcome : Outcome α

namespace Run

variable {α β : Type}

def call (c : Call) (outcome : Outcome α) : Run α := ⟨[c], outcome⟩

def ofOption : Option α → Run α
  | some a => ⟨[], .returned a⟩
  | none => ⟨[], .raised⟩

protected def bind (r : Run α) (f : α → Run β) : Run β :=
  match r.outcome with
  | .returned a => ⟨r.calls ++ (f a).calls, (f a).outcome⟩
  | .valueError error => ⟨r.calls, .valueError error⟩
  | .raised => ⟨r.calls, .raised⟩

instance : Monad Run where
  pure a := ⟨[], .returned a⟩
  bind := Run.bind

/-- `except ValueError`. -/
def exceptValueError (r : Run α) (f : Codes → Run α) : Run α :=
  match r.outcome with
  | .valueError error => ⟨r.calls ++ (f error).calls, (f error).outcome⟩
  | _ => r

end Run

/-! ## Values -/

/-- What the conversions depend on: the limits, the decimal digits beyond
ASCII, `int` of a float, and `str` of a float or a container. -/
structure Interpreter where
  limits : Json.Limits
  decimal : ℕ → Option ℕ
  truncate : List Char → Option ℤ
  repr : Json → Option Codes

section Values

variable (py : Interpreter)

def digit? (n : ℕ) : Option ℕ :=
  if 48 ≤ n ∧ n ≤ 57 then some (n - 48) else if n < 127 then none else py.decimal n

/-- Digits with single underscores between them. -/
def digits? : Codes → Option (List ℕ)
  | [] => none
  | [n] => (digit? py n).map fun d => [d]
  | n :: m :: rest =>
    match digit? py n with
    | none => none
    | some d =>
      if m = '_'.toNat then (digits? rest).map (d :: ·) else (digits? (m :: rest)).map (d :: ·)

/-- The white space around a number. -/
def isSpaceCode (n : ℕ) : Bool :=
  n ∈ [9, 10, 11, 12, 13, 32] || (127 ≤ n && isSpace (Char.ofNat n))

/-- `int` of a string. -/
def intOfStr (text : Codes) : Option ℤ :=
  let text := ((text.dropWhile isSpaceCode).reverse.dropWhile isSpaceCode).reverse
  let (negative, text) :=
    match text with
    | n :: rest =>
      if n = '-'.toNat then (true, rest)
      else if n = '+'.toNat then (false, rest)
      else (false, n :: rest)
    | [] => (false, [])
  match digits? py text with
  | none => none
  | some digits =>
    if (py.limits.maxDigits.map fun limit => decide (limit < digits.length)) = some true then none
    else
      let n : ℤ := digits.foldl (fun n d => n * 10 + d) 0
      some (if negative then -n else n)

/-- `int`. -/
def int : Json → Option ℤ
  | .int n => some n
  | .bool b => some (if b then 1 else 0)
  | .float literal => py.truncate literal
  | .string text => intOfStr py text
  | .null | .array _ | .object _ => none

/-- `str`. -/
def str : Json → Option Codes
  | .string text => some text
  | .null => some (codes "None")
  | .bool b => some (codes (if b then "True" else "False"))
  | .int n => some ((Json.decimal n).map Char.toNat)
  | v => py.repr v

end Values

/-! ## Actions -/

inductive SessionAction where
  | new
  | switch
  | close
  | list
deriving DecidableEq

inductive Action where
  | resize
  | session (action : SessionAction)
  | togglePty
deriving DecidableEq

/-- The action of the protocol that `data.get("action")` is. -/
def Action.ofJson? : Option Json → Option Action
  | some (.string text) =>
    if text = codes "resize" then some .resize
    else if text = codes "session.new" then some (.session .new)
    else if text = codes "session.switch" then some (.session .switch)
    else if text = codes "session.close" then some (.session .close)
    else if text = codes "session.list" then some (.session .list)
    else if text = codes "pty.toggle" then some .togglePty
    else none
  | _ => none

/-- What the callees do while one message is handled. `active` says whether
there is an active session after some of the calls. -/
structure Host where
  resize : ℤ → ℤ → Outcome Unit
  create : Outcome Codes
  switch : Codes → Outcome Unit
  close : Codes → Outcome Unit
  togglePty : Outcome Unit
  broadcast : Codes → Outcome Unit
  sendSessionsState : Outcome Unit
  active : List Call → Bool

section Handlers

variable (py : Interpreter) (host : Host)

/-- The `try` block of `_handle_session_action`. -/
def trySession (data : List (Codes × Json)) : SessionAction → Run Unit
  | .new => do
    let sessionId ← Run.call .create host.create
    Run.call (.switch sessionId) (host.switch sessionId)
  | .switch => do
    let sessionId ← Run.ofOption (str py ((get? data (codes "id")).getD (.string [])))
    Run.call (.switch sessionId) (host.switch sessionId)
  | .close => do
    let sessionId ← Run.ofOption (str py ((get? data (codes "id")).getD (.string [])))
    Run.call (.close sessionId) (host.close sessionId)
  | .list => pure ()

def errorText (error : Codes) : Codes := codes "\r\n[zmux: " ++ error ++ codes "]\r\n"

/-- `_handle_session_action`. -/
def handleSessionAction (action : SessionAction) (data : List (Codes × Json)) : Run Unit := do
  (trySession py host data action).exceptValueError fun error =>
    Run.call (.broadcast (errorText error)) (host.broadcast (errorText error))
  Run.call .sendSessionsState host.sendSessionsState

/-- The branch of `_handle_client_message` for an action. -/
def perform (data : List (Codes × Json)) : Action → Run Unit
  | .resize => do
    let cols ← Run.ofOption (int py ((get? data (codes "cols")).getD (.int 80)))
    let rows ← Run.ofOption (int py ((get? data (codes "rows")).getD (.int 24)))
    Run.call (.resize cols rows) (host.resize cols rows)
  | .session action => handleSessionAction py host action data
  | .togglePty => if host.active [] then Run.call .togglePty host.togglePty else pure ()

/-- `payload.decode("utf-8")`. -/
def decode (payload : List UInt8) : Option (List Char) :=
  payload.toByteArray.utf8Decode?.map Array.toList

/-- The `try` block of `_handle_client_message`: whether it returns from
the handler. -/
def tryControl (payload : List UInt8) : Run Bool :=
  match decode payload with
  | none => Run.ofOption none
  | some message =>
    if (strip message).head? = some '\x7b' ∧ (strip message).getLast? = some '\x7d' then
      match loads py.limits message with
      | some (.object data) =>
        match Action.ofJson? (get? data (codes "action")) with
        | none => pure false
        | some action => do
          perform py host data action
          pure true
      | _ => Run.ofOption none
    else pure false

/-- `on_data_callback`, that is `SessionManager.write_input`. -/
def writeInput (active : Bool) (payload : List UInt8) : List Call :=
  .data payload :: if active then [.input payload] else []

/-- `_handle_client_message`. -/
def handleClientMessage (payload : List UInt8) : List Call :=
  let attempt := tryControl py host payload
  match attempt.outcome with
  | .returned true => attempt.calls
  | _ => attempt.calls ++ writeInput (host.active attempt.calls) payload

end Handlers

/-! ## What is control -/

/-- The payload is the text of a JSON object with an action of the
protocol. -/
def controlObject (payload : List UInt8) : Option (Action × List (Codes × Json)) :=
  match (decode payload).bind Json.parse with
  | some (.object data) =>
    (Action.ofJson? (get? data (codes "action"))).map fun action => (action, data)
  | _ => none

/-- The handling of the action ends without an exception. -/
def Returns (py : Interpreter) (host : Host) (action : Action) (data : List (Codes × Json)) :
    Prop :=
  Json.within py.limits.maxDigits py.limits.nesting (.object data) = true ∧
    (perform py host data action).outcome = .returned ()

/-- `WebSocket.send` of a text. -/
def encode (text : List Char) : List UInt8 := text.flatMap String.utf8EncodeChar

/-- `sendAction` of the frontend. -/
def sendAction (data : List (Codes × Json)) : List UInt8 :=
  encode (Json.stringify (.object data))

theorem decode_encode (text : List Char) : decode (encode text) = some text := by
  have h : (encode text).toByteArray = text.utf8Encode := rfl
  rw [decode, h, List.utf8Decode?_utf8Encode]
  rfl

/-- What the frontend sends as a control object is one. -/
theorem controlObject_sendAction {data : List (Codes × Json)} (h : Json.Sendable (.object data))
    {action : Action} (haction : Action.ofJson? (get? data (codes "action")) = some action) :
    controlObject (sendAction data) = some (action, data) := by
  rw [controlObject, sendAction, decode_encode, Option.bind_some, Json.parse_stringify h]
  dsimp only
  rw [haction]
  rfl

theorem isSpace_of_isBlank {c : Char} (h : Json.isBlank c = true) : isSpace c = true := by
  simp [Json.isBlank] at h
  rcases h with rfl | rfl | rfl | rfl <;> decide

/-- The text of an object passes the test for braces. -/
theorem strip_object {message : List Char} {data : List (Codes × Json)}
    (h : Json.parse message = some (.object data)) :
    (strip message).head? = some '\x7b' ∧ (strip message).getLast? = some '\x7d' := by
  obtain ⟨before, inner, after, rfl, hbefore, hafter⟩ := Json.parse_braces h
  rw [strip_between (fun c hc => isSpace_of_isBlank (hbefore c hc))
    (fun c hc => isSpace_of_isBlank (hafter c hc)) (by decide) (by decide)]
  exact ⟨rfl, by rw [← List.cons_append, List.getLast?_concat]⟩

section

variable {py : Interpreter} {host : Host} {payload : List UInt8}

theorem tryControl_of_none (h : controlObject payload = none) :
    (tryControl py host payload).calls = [] ∧
      (tryControl py host payload).outcome ≠ .returned true := by
  unfold tryControl
  unfold controlObject at h
  cases hdecode : decode payload with
  | none => exact ⟨rfl, nofun⟩
  | some message =>
      rw [hdecode, Option.bind_some] at h
      dsimp only
      split_ifs
      · split
        · rename_i data hloads
          rw [(Option.filter_eq_some_iff.mp hloads).1] at h
          dsimp only at h
          rw [Option.map_eq_none_iff.mp h]
          exact ⟨rfl, nofun⟩
        · exact ⟨rfl, nofun⟩
      · exact ⟨rfl, nofun⟩

theorem tryControl_of_some {action : Action} {data : List (Codes × Json)}
    (h : controlObject payload = some (action, data)) :
    tryControl py host payload =
      if Json.within py.limits.maxDigits py.limits.nesting (.object data) then do
        perform py host data action
        pure true
      else Run.ofOption none := by
  unfold controlObject at h
  unfold tryControl
  cases hdecode : decode payload with
  | none => rw [hdecode] at h; cases h
  | some message =>
      rw [hdecode, Option.bind_some] at h
      dsimp only
      split at h
      · rename_i data' hparse
        obtain ⟨action', haction, heq⟩ := Option.map_eq_some_iff.mp h
        obtain ⟨rfl, rfl⟩ := Prod.mk.inj heq
        rw [if_pos (strip_object hparse), loads, hparse]
        rw [Option.filter_some]
        split_ifs with hwithin
        · dsimp only
          rw [haction]
        · rfl
      · cases h

/-! ## Input -/

/-- A run that passes nothing to a session. -/
def Quiet {α : Type} (r : Run α) : Prop := ∀ call ∈ r.calls, call.isInput = false

theorem quiet_bind {α β : Type} {r : Run α} {f : α → Run β} (hr : Quiet r)
    (hf : ∀ a, Quiet (f a)) : Quiet (r >>= f) := by
  change Quiet (Run.bind r f)
  unfold Run.bind
  split
  · exact fun call hcall => (List.mem_append.mp hcall).elim (hr call) (hf _ call)
  · exact hr
  · exact hr

theorem quiet_exceptValueError {α : Type} {r : Run α} {f : Codes → Run α} (hr : Quiet r)
    (hf : ∀ error, Quiet (f error)) : Quiet (r.exceptValueError f) := by
  unfold Run.exceptValueError
  split
  · exact fun call hcall => (List.mem_append.mp hcall).elim (hr call) (hf _ call)
  · exact hr

theorem quiet_call {α : Type} {c : Call} (h : c.isInput = false) (outcome : Outcome α) :
    Quiet (Run.call c outcome) := by
  intro call hcall
  exact List.mem_singleton.mp hcall ▸ h

theorem quiet_ofOption {α : Type} (o : Option α) : Quiet (Run.ofOption o) := by
  cases o <;> exact nofun

theorem quiet_pure {α : Type} (a : α) : Quiet (pure a : Run α) := nofun

theorem quiet_trySession (data : List (Codes × Json)) (action : SessionAction) :
    Quiet (trySession py host data action) := by
  cases action with
  | new => exact quiet_bind (quiet_call rfl _) fun _ => quiet_call rfl _
  | switch | close => exact quiet_bind (quiet_ofOption _) fun _ => quiet_call rfl _
  | list => exact nofun

/-- No action passes anything to a session. -/
theorem quiet_perform (data : List (Codes × Json)) (action : Action) :
    Quiet (perform py host data action) := by
  cases action with
  | resize =>
      exact quiet_bind (quiet_ofOption _) fun _ => quiet_bind (quiet_ofOption _) fun _ =>
        quiet_call rfl _
  | session action =>
      have htry : Quiet (trySession py host data action) := quiet_trySession data action
      have hcaught := quiet_exceptValueError htry fun error =>
        quiet_call (c := .broadcast (errorText error)) rfl
          (host.broadcast (errorText error))
      exact quiet_bind hcaught fun _ => quiet_call rfl _
  | togglePty =>
      change Quiet (if host.active [] then Run.call .togglePty host.togglePty else pure ())
      split
      · exact quiet_call rfl _
      · exact quiet_pure ()

/-! ## The handler -/

theorem bind_pure_of_returned {r : Run Unit} (h : r.outcome = .returned ()) :
    (r >>= fun _ => pure true) = ⟨r.calls, .returned true⟩ := by
  change Run.bind r (fun _ => ⟨[], .returned true⟩) = _
  rw [Run.bind, h, List.append_nil]

theorem bind_pure_of_not_returned {r : Run Unit} (h : r.outcome ≠ .returned ()) :
    (r >>= fun _ => pure true).calls = r.calls ∧
      (r >>= fun _ => pure true).outcome ≠ .returned true := by
  change (Run.bind r fun _ => ⟨[], .returned true⟩).calls = _ ∧
    (Run.bind r fun _ => ⟨[], .returned true⟩).outcome ≠ _
  unfold Run.bind
  split
  · rename_i houtcome
    exact absurd houtcome h
  · exact ⟨rfl, nofun⟩
  · exact ⟨rfl, nofun⟩

theorem handleClientMessage_of_not_returned
    (h : (tryControl py host payload).outcome ≠ .returned true) :
    handleClientMessage py host payload = (tryControl py host payload).calls ++
      writeInput (host.active (tryControl py host payload).calls) payload := by
  unfold handleClientMessage
  dsimp only
  split
  · rename_i houtcome
    exact absurd houtcome h
  · rfl

theorem handleClientMessage_of_none (h : controlObject payload = none) :
    handleClientMessage py host payload = writeInput (host.active []) payload := by
  obtain ⟨hcalls, hreturned⟩ := @tryControl_of_none py host payload h
  rw [handleClientMessage_of_not_returned hreturned, hcalls, List.nil_append]

variable {action : Action} {data : List (Codes × Json)}

theorem handleClientMessage_of_returns (h : controlObject payload = some (action, data))
    (hreturns : Returns py host action data) :
    handleClientMessage py host payload = (perform py host data action).calls := by
  unfold handleClientMessage
  dsimp only
  rw [tryControl_of_some h, if_pos hreturns.1, bind_pure_of_returned hreturns.2]

/-- What is called for a control message whose handling raises. -/
def partialCalls (py : Interpreter) (host : Host) (action : Action)
    (data : List (Codes × Json)) : List Call :=
  if Json.within py.limits.maxDigits py.limits.nesting (.object data) then
    (perform py host data action).calls
  else []

/-- A control message whose handling raises goes on as input, after what
was done of it. -/
theorem input_of_not_returns (h : controlObject payload = some (action, data))
    (hreturns : ¬ Returns py host action data) :
    handleClientMessage py host payload = partialCalls py host action data ++
      writeInput (host.active (partialCalls py host action data)) payload := by
  have htry : (tryControl py host payload).calls = partialCalls py host action data ∧
      (tryControl py host payload).outcome ≠ .returned true := by
    rw [tryControl_of_some h, partialCalls]
    split_ifs with hwithin
    · exact bind_pure_of_not_returned fun hreturned => hreturns ⟨hwithin, hreturned⟩
    · exact ⟨rfl, nofun⟩
  rw [handleClientMessage_of_not_returned htry.2, htry.1]

end

/-! ## The manager as host -/

section Tabs

/-- A call ends with `struct.error` if the tabs say so. -/
def ending {α : Type} (s s' : Geometry.Tabs) (a : α) : Outcome α :=
  if s'.raised && !s.raised then .raised else .returned a

def sessionCodes (sessionId : SessionId) : Codes := (Nat.toDigits 10 sessionId).map Char.toNat

/-- The session with this id, if there is one. -/
def session? (s : Geometry.Tabs) (text : Codes) : Option SessionId :=
  s.manager.order.find? fun sessionId => sessionCodes sessionId = text

/-- The manager with these tabs, where nothing but `create` and
`set_winsize` raises. -/
def Host.ofTabs (spawn : Geometry.Tabs.Spawn) (s : Geometry.Tabs) : Host where
  resize cols rows := ending s (s.resize cols rows) ()
  create :=
    match s.manager.create true with
    | none => .valueError (codes "session limit reached (8)")
    | some (sessionId, _) => ending s (s.create true spawn) (sessionCodes sessionId)
  switch text := ending s (s.switch (session? s text)) ()
  close text :=
    match session? s text with
    | none => .returned ()
    | some sessionId => ending s (s.close sessionId spawn) ()
  togglePty := .returned ()
  broadcast _ := .returned ()
  sendSessionsState := .returned ()
  active _ := s.manager.active.isSome

/-- The fields that the action reads convert, and a resize that is taken
fits in 16 bits. -/
def Convertible (py : Interpreter) (data : List (Codes × Json)) : Action → Prop
  | .resize => ∃ cols rows, int py ((get? data (codes "cols")).getD (.int 80)) = some cols ∧
      int py ((get? data (codes "rows")).getD (.int 24)) = some rows ∧
      (0 < cols → 0 < rows → cols ≤ 65535 ∧ rows ≤ 65535)
  | .session .switch | .session .close =>
    ∃ sessionId, str py ((get? data (codes "id")).getD (.string [])) = some sessionId
  | .session .new | .session .list | .togglePty => True

theorem bind_outcome {α β : Type} {r : Run α} {a : α} (h : r.outcome = .returned a)
    (f : α → Run β) : (r >>= f).outcome = (f a).outcome := by
  change (Run.bind r f).outcome = _
  rw [Run.bind, h]

theorem bind_not_raised {α β : Type} {r : Run α} {f : α → Run β} (h : r.outcome ≠ .raised)
    (hf : ∀ a, (f a).outcome ≠ .raised) : (r >>= f).outcome ≠ .raised := by
  change (Run.bind r f).outcome ≠ .raised
  unfold Run.bind
  split
  · exact hf _
  · exact nofun
  · rename_i houtcome
    exact absurd houtcome h

theorem exceptValueError_outcome {r : Run Unit} {f : Codes → Run Unit}
    (h : r.outcome ≠ .raised) (hf : ∀ error, (f error).outcome = .returned ()) :
    (r.exceptValueError f).outcome = .returned () := by
  unfold Run.exceptValueError
  split
  · exact hf _
  · rename_i hvalue
    cases houtcome : r.outcome with
    | returned a => rfl
    | valueError error => exact absurd houtcome (hvalue error)
    | raised => exact absurd houtcome h

theorem ending_eq {s s' : Geometry.Tabs} {α : Type} {a : α} (h : s'.raised = false) :
    ending s s' a = .returned a := by
  rw [ending, h]
  rfl

section Returns

variable {py : Interpreter} {spawn : Geometry.Tabs.Spawn} {s : Geometry.Tabs}
  {data : List (Codes × Json)}

theorem create_ofTabs (h : Geometry.Tabs.Applied s none) :
    (Host.ofTabs spawn s).create ≠ .raised := by
  unfold Host.ofTabs
  dsimp only
  split
  · exact nofun
  · rw [ending_eq (h.create true spawn).raised]
    exact nofun

theorem close_ofTabs (h : Geometry.Tabs.Applied s none) (text : Codes) :
    (Host.ofTabs spawn s).close text = .returned () := by
  unfold Host.ofTabs
  dsimp only
  split
  · rfl
  · exact ending_eq (h.close _ spawn).raised

theorem switch_ofTabs (h : Geometry.Tabs.Applied s none) (text : Codes) :
    (Host.ofTabs spawn s).switch text = .returned () :=
  ending_eq (h.switch _).raised

theorem trySession_ofTabs (h : Geometry.Tabs.Applied s none) {action : SessionAction}
    (hdata : Convertible py data (.session action)) :
    (trySession py (Host.ofTabs spawn s) data action).outcome ≠ .raised := by
  have hswitch (text : Codes) :
      (Run.call (.switch text) ((Host.ofTabs spawn s).switch text)).outcome ≠ .raised := by
    rw [switch_ofTabs h]
    exact nofun
  have hclose (text : Codes) :
      (Run.call (.close text) ((Host.ofTabs spawn s).close text)).outcome ≠ .raised := by
    rw [close_ofTabs h]
    exact nofun
  cases action with
  | new => exact bind_not_raised (create_ofTabs h) hswitch
  | switch =>
      obtain ⟨sessionId, hid⟩ := hdata
      exact bind_not_raised (by rw [hid]; exact nofun) hswitch
  | close =>
      obtain ⟨sessionId, hid⟩ := hdata
      exact bind_not_raised (by rw [hid]; exact nofun) hclose
  | list => exact nofun

/-- Over tabs whose levels agree, the handling of an action returns. -/
theorem returns_ofTabs (h : Geometry.Tabs.Applied s none)
    (hwithin : Json.within py.limits.maxDigits py.limits.nesting (.object data) = true)
    {action : Action} (hdata : Convertible py data action) :
    Returns py (Host.ofTabs spawn s) action data := by
  refine ⟨hwithin, ?_⟩
  cases action with
  | resize =>
      obtain ⟨cols, rows, hcols, hrows, hfits⟩ := hdata
      have hreturned : (Host.ofTabs spawn s).resize cols rows = .returned () :=
        ending_eq (h.resize cols rows hfits).raised
      rw [perform, hcols, hrows, bind_outcome rfl, bind_outcome rfl, hreturned]
      rfl
  | session action =>
      have htry : (trySession py (Host.ofTabs spawn s) data action).outcome ≠ .raised :=
        trySession_ofTabs h hdata
      have hcaught := exceptValueError_outcome htry
        (f := fun error => Run.call (.broadcast (errorText error)) (.returned ())) fun _ => rfl
      exact bind_outcome hcaught _
  | togglePty =>
      change (if _ then Run.call .togglePty (.returned ()) else pure ()).outcome = _
      split <;> rfl

/-- In every run of the manager whose resizes fit in 16 bits, a control
object with fields that convert is not typed into a shell. -/
theorem control_is_never_input
    (h : Reach Geometry.Tabs.step Geometry.Tabs.SixteenBit Geometry.Tabs.start s)
    {payload : List UInt8} {action : Action}
    (hcontrol : controlObject payload = some (action, data))
    (hwithin : Json.within py.limits.maxDigits py.limits.nesting (.object data) = true)
    (hdata : Convertible py data action) :
    ∀ call ∈ handleClientMessage py (Host.ofTabs spawn s) payload, call.isInput = false := by
  have hreturns : Returns py (Host.ofTabs spawn s) action data :=
    returns_ofTabs (Geometry.Tabs.applied_of_reach h) hwithin hdata
  rw [handleClientMessage_of_returns hcontrol hreturns]
  exact quiet_perform data action

end Returns

/-- One tab, with a shell. -/
def oneTab : Host := Host.ofTabs .alive (Geometry.Tabs.start.create true .alive)

end Tabs

/-- CPython, with none of its values of floats and other scripts' digits. -/
def cpython : Interpreter where
  limits := ⟨900, some 4300⟩
  decimal _ := none
  truncate _ := none
  repr _ := none

/-- **Demultiplexing.** A payload that is no control object reaches the
active session once, as it is, and nothing else is called. Of a control
object, as any text or as the frontend writes it, nothing reaches a
session if its handling returns: then exactly its action is called. -/
theorem demultiplex (py : Interpreter) (host : Host) :
    (∀ payload, controlObject payload = none →
      handleClientMessage py host payload = writeInput (host.active []) payload) ∧
    (∀ payload action data, controlObject payload = some (action, data) →
      Returns py host action data →
      handleClientMessage py host payload = (perform py host data action).calls ∧
        ∀ call ∈ handleClientMessage py host payload, call.isInput = false) ∧
    ∀ data action, Json.Sendable (.object data) →
      Action.ofJson? (get? data (codes "action")) = some action →
      controlObject (sendAction data) = some (action, data) := by
  refine ⟨fun payload => handleClientMessage_of_none, fun payload action data h hreturns => ?_,
    fun data action h haction => controlObject_sendAction h haction⟩
  have hcalls := handleClientMessage_of_returns h hreturns
  rw [hcalls]
  exact ⟨rfl, quiet_perform data action⟩

/-- A typed command is input, and the frontend's request for the tabs is
answered. -/
theorem demultiplex_oneTab :
    let command := encode "ls\r".toList
    let list := [(codes "action", Json.string (codes "session.list"))]
    handleClientMessage cpython oneTab command = [.data command, .input command] ∧
      handleClientMessage cpython oneTab (sendAction list) = [.sendSessionsState] ∧
      controlObject (sendAction list) = some (.session .list, list) := by
  intro command list
  have hcommand : controlObject command = none := by
    rw [controlObject, decode_encode]
    rfl
  have hlist := (demultiplex cpython oneTab).2.2 list (.session .list)
    (.object (by decide) (List.forall_mem_cons.mpr ⟨.string (by decide), nofun⟩)) (by decide)
  have hreturns : Returns cpython oneTab (.session .list) list := ⟨by decide, by decide⟩
  exact ⟨(demultiplex cpython oneTab).1 command hcommand,
    ((demultiplex cpython oneTab).2.1 _ _ _ hlist hreturns).1, hlist⟩

def resizeFields (cols : Json) : List (Codes × Json) :=
  [(codes "action", .string (codes "resize")), (codes "cols", cols), (codes "rows", .int 24)]

def closeFields : List (Codes × Json) :=
  [(codes "action", .string (codes "session.close")), (codes "id", .string (codes "1"))]

theorem sendable_closeFields : Json.Sendable (.object closeFields) :=
  .object (by decide) (List.forall_mem_cons.mpr ⟨.string (by decide),
    List.forall_mem_cons.mpr ⟨.string (by decide), nofun⟩⟩)

theorem sendable_resizeFields {cols : Json} (h : Json.Sendable cols) :
    Json.Sendable (.object (resizeFields cols)) := by
  have hkeys : ∀ key ∈ ["action", "cols", "rows"], Json.IsText (codes key) := by decide
  refine .object (by simpa [resizeFields] using hkeys) ?_
  exact List.forall_mem_cons.mpr ⟨.string (by decide), List.forall_mem_cons.mpr ⟨h,
    List.forall_mem_cons.mpr ⟨.int 24, nofun⟩⟩⟩

/-- A pasted object closes a tab. A resize with the `null` of a `NaN` is
typed into the shell, and so is one that does not fit in 16 bits, after
the manager has taken it. -/
theorem demultiplex_fails :
    let pasted := encode "\x7b\"action\":\"session.close\",\"id\":\"1\"\x7d".toList
    let unmeasured := sendAction (resizeFields .null)
    let wide := sendAction (resizeFields (.int 100000))
    handleClientMessage cpython oneTab pasted = [.close (codes "1"), .sendSessionsState] ∧
      handleClientMessage cpython oneTab unmeasured = [.data unmeasured, .input unmeasured] ∧
      handleClientMessage cpython oneTab wide
        = [.resize 100000 24, .data wide, .input wide] := by
  intro pasted unmeasured wide
  have hpasted : pasted = sendAction closeFields := by decide
  have hclose : controlObject (sendAction closeFields) = some (.session .close, closeFields) :=
    controlObject_sendAction sendable_closeFields (by decide)
  have hresize {cols : Json} (h : Json.Sendable cols) :
      controlObject (sendAction (resizeFields cols)) = some (.resize, resizeFields cols) :=
    controlObject_sendAction (sendable_resizeFields h) rfl
  refine ⟨?_, ?_, ?_⟩
  · rw [hpasted, handleClientMessage_of_returns hclose ⟨by decide, by decide⟩]
    decide
  · have hcalls : partialCalls cpython oneTab .resize (resizeFields .null) = [] := by decide
    rw [input_of_not_returns (hresize .null) fun h => absurd h.2 (by decide), hcalls]
    rfl
  · have hcalls : partialCalls cpython oneTab .resize (resizeFields (.int 100000))
        = [.resize 100000 24] := by decide
    rw [input_of_not_returns (hresize (.int _)) fun h => absurd h.2 (by decide), hcalls]
    rfl

end WsControl

end Zmux
