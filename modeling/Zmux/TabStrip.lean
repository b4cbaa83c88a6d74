import Zmux.JsonDump
import Zmux.WsControl

/-!
# The tab strip of the page

The server owns the sessions, the page shows them: after every action
`_send_sessions_state` sends the `snapshot` of the manager to all pages, as
a text frame with JSON, and `handleControlMessage` and `renderTabs` make the
strip of it (`onText_sessionsState`).

Whatever a client sends, after the last call that changes the manager its
state is sent (`reported_handle`). So a page that has read all it was sent
shows the manager as it is (`shown_of_reach`), except for the dots, which
stay until the next message. Only a resize beyond 16 bits can part the two,
since the `create` after it raises before anything is sent.
-/

namespace Zmux

namespace TabStrip

open Json (Sendable get?)
open WsControl (Call Host Interpreter decode encode handleClientMessage sendAction session?
  sessionCodes)

/-! ## The message -/

/-- The dict of a session in `snapshot`. -/
def sessionObject (busy : SessionId → Bool) (sessionId : SessionId) : Json :=
  .object [(codes "id", .string (sessionCodes sessionId)), (codes "busy", .bool (busy sessionId))]

/-- `snapshot`, with the field that `_send_sessions_state` adds. -/
def stateObject (busy : SessionId → Bool) (m : Manager) : List (Codes × Json) :=
  [(codes "type", .string (codes "sessions")),
    (codes "sessions", .array (m.order.map (sessionObject busy))),
    (codes "active", m.active.elim .null fun sessionId => .string (sessionCodes sessionId)),
    (codes "max", .int maxSessions)]

/-- What `_send_sessions_state` hands to `_send_frame`. -/
def sessionsState (busy : SessionId → Bool) (m : Manager) : List UInt8 :=
  encode (Json.dumps (.object (stateObject busy m)))

/-! ## The page -/

structure Tab where
  id : Codes
  /-- The class `active`. -/
  active : Bool
  /-- There is a dot. -/
  busy : Bool
  label : ℕ
deriving DecidableEq

structure Strip where
  tabs : List Tab
  /-- There is a `+`. -/
  add : Bool
deriving DecidableEq

/-- `session.id === state.active`. -/
def isActive (state : List (Codes × Json)) (id : Codes) : Bool :=
  match get? state (codes "active") with
  | some (.string active) => decide (id = active)
  | _ => false

/-- A tab of `renderTabs`, of a session with a string for its id. -/
def renderTab (state : List (Codes × Json)) (session : Json) (index : ℕ) : Option Tab :=
  match session with
  | .object fields =>
    match get? fields (codes "id"), get? fields (codes "busy") with
    | some (.string id), some (.bool busy) =>
      some ⟨id, isActive state id, busy && !isActive state id, index + 1⟩
    | _, _ => none
  | _ => none

def renderTabList (state : List (Codes × Json)) : List Json → (index : ℕ) → Option (List Tab)
  | [], _ => some []
  | session :: sessions, index =>
    match renderTab state session index, renderTabList state sessions (index + 1) with
    | some tab, some tabs => some (tab :: tabs)
    | _, _ => none

/-- `renderTabs`. -/
def renderTabs (state : List (Codes × Json)) : Option Strip :=
  match get? state (codes "sessions") with
  | some (.array sessions) =>
    (renderTabList state sessions 0).map fun tabs =>
      let max : ℤ :=
        match get? state (codes "max") with
        | some (.int n) => if n = 0 then 8 else n
        | _ => 8
      ⟨tabs, decide ((sessions.length : ℤ) < max)⟩
  | _ => none

/-- `handleControlMessage`. -/
def handleControlMessage (text : List Char) : Option Strip :=
  if text.head? = some '\x7b' then
    match Json.parse text with
    | some (.object message) =>
      match get? message (codes "type") with
      | some (.string kind) => if kind = codes "sessions" then renderTabs message else none
      | _ => none
    | _ => none
  else none

/-- A text frame with this payload arrives. -/
def onText (payload : List UInt8) : Option Strip := (decode payload).bind handleControlMessage

/-! ## What the page shows -/

/-- The strip for a manager. -/
def Strip.of (busy : SessionId → Bool) (m : Manager) : Strip where
  tabs := m.order.mapIdx fun index sessionId =>
    ⟨sessionCodes sessionId, decide (m.active = some sessionId),
      busy sessionId && !decide (m.active = some sessionId), index + 1⟩
  add := decide (m.order.length < maxSessions)

variable {busy : SessionId → Bool} {m : Manager}

theorem sessionCodes_inj {i j : SessionId} : sessionCodes i = sessionCodes j ↔ i = j := by
  constructor
  · intro h
    have hdigits : Nat.toDigits 10 i = Nat.toDigits 10 j :=
      List.map_injective_iff.mpr (fun _ _ h => Char.toNat_inj.mp h) h
    rw [← Nat.ofDigitChars_ten_toDigits (n := i), hdigits, Nat.ofDigitChars_ten_toDigits]
  · rintro rfl
    rfl

theorem isText_sessionCodes (i : SessionId) : Json.IsText (sessionCodes i) := Json.isText_chars _

theorem sendable_stateObject (busy : SessionId → Bool) (m : Manager) :
    Sendable (.object (stateObject busy m)) := by
  have hkeys : ∀ key ∈ ["type", "sessions", "active", "max", "id", "busy"],
      Json.IsText (codes key) := by decide
  have hsession (i : SessionId) : Sendable (sessionObject busy i) := by
    refine .object (by simp [hkeys]) fun field hfield => ?_
    simp only [List.mem_cons, List.not_mem_nil, or_false] at hfield
    rcases hfield with rfl | rfl
    · exact .string (isText_sessionCodes i)
    · exact .bool _
  refine .object (by simp [stateObject, hkeys]) fun field hfield => ?_
  simp only [stateObject, List.mem_cons, List.not_mem_nil, or_false] at hfield
  rcases hfield with rfl | rfl | rfl | rfl
  · exact .string (by decide)
  · exact .array (List.forall_mem_map.mpr fun i _ => hsession i)
  · cases m.active with
    | none => exact .null
    | some i => exact .string (isText_sessionCodes i)
  · exact .int _

theorem isActive_stateObject (i : SessionId) :
    isActive (stateObject busy m) (sessionCodes i) = decide (m.active = some i) := by
  have hactive : get? (stateObject busy m) (codes "active")
      = some (m.active.elim .null fun sessionId => .string (sessionCodes sessionId)) := rfl
  rw [isActive, hactive]
  cases m.active with
  | none => rfl
  | some j =>
      have hiff : sessionCodes i = sessionCodes j ↔ some j = some i := by
        rw [sessionCodes_inj, Option.some_inj, eq_comm]
      exact decide_eq_decide.mpr hiff

theorem renderTabList_stateObject (order : List SessionId) (index : ℕ) :
    renderTabList (stateObject busy m) (order.map (sessionObject busy)) index
      = some (order.mapIdx fun k sessionId =>
        ⟨sessionCodes sessionId, decide (m.active = some sessionId),
          busy sessionId && !decide (m.active = some sessionId), index + k + 1⟩) := by
  induction order generalizing index with
  | nil => rfl
  | cons i order ih =>
      have hfirst : renderTab (stateObject busy m) (sessionObject busy i) index
          = some ⟨sessionCodes i, isActive (stateObject busy m) (sessionCodes i),
            busy i && !isActive (stateObject busy m) (sessionCodes i), index + 1⟩ := rfl
      rw [List.map_cons, renderTabList, hfirst, ih, isActive_stateObject, List.mapIdx_cons]
      simp only [Nat.add_zero, Nat.add_assoc, Nat.add_comm 1]

/-- The page shows what was sent. -/
theorem onText_sessionsState (busy : SessionId → Bool) (m : Manager) :
    onText (sessionsState busy m) = some (Strip.of busy m) := by
  have hparse := Json.parse_dumps (sendable_stateObject busy m)
  have hhead : (Json.dumps (.object (stateObject busy m))).head? = some '\x7b' := rfl
  have hrender : renderTabs (stateObject busy m) = some (Strip.of busy m) := by
    have hsessions : get? (stateObject busy m) (codes "sessions")
        = some (.array (m.order.map (sessionObject busy))) := rfl
    have hmax : get? (stateObject busy m) (codes "max") = some (.int maxSessions) := rfl
    rw [renderTabs, hsessions, hmax]
    dsimp only
    rw [renderTabList_stateObject, Option.map_some, Strip.of]
    refine congrArg some (congrArg₂ Strip.mk ?_ (decide_eq_decide.mpr ?_))
    · simp only [Nat.zero_add]
    · have hmax : (if (maxSessions : ℤ) = 0 then 8 else (maxSessions : ℤ)) = 8 := rfl
      rw [hmax, List.length_map, maxSessions]
      omega
  rw [onText, sessionsState, WsControl.decode_encode, Option.bind_some, handleControlMessage,
    if_pos hhead, hparse]
  exact hrender

/-! ## The server and the page -/

/-- The tabs after a call of the handler; what a toggle does to a shell is
an `Op` of its own. -/
def afterCall (spawn : Geometry.Tabs.Spawn) (s : Geometry.Tabs) : Call → Geometry.Tabs
  | .resize cols rows => s.resize cols rows
  | .create => s.create true spawn
  | .switch text => s.switch (session? s text)
  | .close text =>
    match session? s text with
    | some sessionId => s.close sessionId spawn
    | none => s
  | .data _ | .input _ | .togglePty | .broadcast _ | .sendSessionsState => s

/-- The calls one after another: the tabs, and what is sent of them. -/
def serve (spawn : Geometry.Tabs.Spawn) (busy : SessionId → Bool) :
    Geometry.Tabs → List Call → Geometry.Tabs × List (List UInt8)
  | s, [] => (s, [])
  | s, call :: calls =>
    let (s', sent) := serve spawn busy (afterCall spawn s call) calls
    match call with
    | .sendSessionsState => (s', sessionsState busy s.manager :: sent)
    | _ => (s', sent)

/-- The manager, and a page that is connected. -/
structure System where
  tabs : Geometry.Tabs
  strip : Strip

inductive Step where
  /-- `_handle_client_message`, for any client. -/
  | message (payload : List UInt8) (spawn : Geometry.Tabs.Spawn) (busy : SessionId → Bool)
  /-- A shell is entered, exits or is left. -/
  | enter (sessionId : SessionId) (spawn : Geometry.Tabs.Spawn)
  | exit (sessionId : SessionId)
  | leave (sessionId : SessionId)

section Run

variable (py : Interpreter)

def callsOf (spawn : Geometry.Tabs.Spawn) (s : System) (payload : List UInt8) : List Call :=
  handleClientMessage py (Host.ofTabs spawn s.tabs) payload

/-- The page shows the last state that it is sent. -/
def System.received (s : System) (tabs : Geometry.Tabs) (sent : List (List UInt8)) : System where
  tabs := tabs
  strip := (sent.filterMap onText).getLastD s.strip

def step (s : System) : Step → Option System
  | .message payload spawn busy =>
    let (tabs, sent) := serve spawn busy s.tabs (callsOf py spawn s payload)
    some (s.received tabs sent)
  | .enter sessionId spawn => (s.tabs.step (.enter sessionId spawn)).map fun tabs => { s with tabs }
  | .exit sessionId => (s.tabs.step (.exit sessionId)).map fun tabs => { s with tabs }
  | .leave sessionId => (s.tabs.step (.leave sessionId)).map fun tabs => { s with tabs }

/-- The resizes that the manager takes fit in 16 bits. -/
def SmallResizes (s : System) : Step → Prop
  | .message payload spawn _ => ∀ cols rows, .resize cols rows ∈ callsOf py spawn s payload →
    0 < cols → 0 < rows → cols ≤ 65535 ∧ rows ≤ 65535
  | _ => True

end Run

/-- `get_manager`, and the page that has connected. -/
def start (spawn : Geometry.Tabs.Spawn) (busy : SessionId → Bool) : System where
  tabs := Geometry.Tabs.start.create true spawn
  strip := Strip.of busy (Geometry.Tabs.start.create true spawn).manager

/-! ## What the calls do -/

/-- A call that changes nothing of the manager, and sends nothing of it. -/
def Neutral : Call → Prop
  | .data _ | .input _ | .resize .. | .togglePty | .broadcast _ => True
  | .create | .switch _ | .close _ | .sendSessionsState => False

/-- After the last call that changes the manager, its state is sent. -/
def Reported (calls : List Call) : Prop :=
  (∀ call ∈ calls, Neutral call) ∨
    ∃ front back, calls = front ++ .sendSessionsState :: back ∧ ∀ call ∈ back, Neutral call

section Calls

variable {py : Interpreter} {spawn : Geometry.Tabs.Spawn} {s : Geometry.Tabs}

theorem manager_resizeSession (i : SessionId) (cols rows : ℤ) :
    (s.resizeSession i cols rows).manager = s.manager := by
  unfold Geometry.Tabs.resizeSession
  dsimp only
  split <;> rfl

theorem manager_enter (i : SessionId) : (s.enter i spawn).manager = s.manager := by
  unfold Geometry.Tabs.enter
  dsimp only
  split
  · rfl
  · rfl
  · split <;> rfl

theorem manager_resize (cols rows : ℤ) : (s.resize cols rows).manager = s.manager := by
  unfold Geometry.Tabs.resize
  split
  · rfl
  · dsimp only
    split
    · rfl
    · exact manager_resizeSession ..

theorem manager_neutral {call : Call} (h : Neutral call) :
    (afterCall spawn s call).manager = s.manager := by
  cases call with
  | resize cols rows => exact manager_resize cols rows
  | data | input | togglePty | broadcast => rfl
  | create | switch | close | sendSessionsState => exact h.elim

theorem serve_neutral {calls : List Call} (h : ∀ call ∈ calls, Neutral call) :
    (serve spawn busy s calls).2 = [] ∧ (serve spawn busy s calls).1.manager = s.manager := by
  induction calls generalizing s with
  | nil => exact ⟨rfl, rfl⟩
  | cons call calls ih =>
      obtain ⟨hcall, hcalls⟩ := List.forall_mem_cons.mp h
      obtain ⟨hsent, hmanager⟩ := ih (s := afterCall spawn s call) hcalls
      rw [manager_neutral hcall] at hmanager
      cases call with
      | data | input | resize | togglePty | broadcast => exact ⟨hsent, hmanager⟩
      | create | switch | close | sendSessionsState => exact hcall.elim

theorem serve_append (front back : List Call) :
    serve spawn busy s (front ++ back)
      = ((serve spawn busy (serve spawn busy s front).1 back).1,
        (serve spawn busy s front).2
          ++ (serve spawn busy (serve spawn busy s front).1 back).2) := by
  induction front generalizing s with
  | nil => rfl
  | cons call front ih =>
      rw [List.cons_append, serve, serve, ih]
      cases call <;> rfl

/-- The last state that is sent is the one of the end. -/
theorem serve_reported {calls : List Call} (h : Reported calls) :
    ((serve spawn busy s calls).2 = [] ∧ (serve spawn busy s calls).1.manager = s.manager) ∨
      (serve spawn busy s calls).2.getLast?
        = some (sessionsState busy (serve spawn busy s calls).1.manager) := by
  rcases h with hneutral | ⟨front, back, rfl, hback⟩
  · exact .inl (serve_neutral hneutral)
  · refine .inr ?_
    rw [serve_append]
    obtain ⟨hsent, hmanager⟩ := @serve_neutral busy spawn (serve spawn busy s front).1 back hback
    have hsends : serve spawn busy (serve spawn busy s front).1 (.sendSessionsState :: back)
        = ((serve spawn busy (serve spawn busy s front).1 back).1,
          sessionsState busy (serve spawn busy s front).1.manager
            :: (serve spawn busy (serve spawn busy s front).1 back).2) := rfl
    rw [hsends, hsent, hmanager, List.getLast?_concat]

/-- A session action that raises has called nothing. -/
theorem trySession_raised (h : Geometry.Tabs.Applied s none) {data : List (Codes × Json)}
    {action : WsControl.SessionAction}
    (hraised : (WsControl.trySession py (Host.ofTabs spawn s) data action).outcome = .raised) :
    (WsControl.trySession py (Host.ofTabs spawn s) data action).calls = [] := by
  have hid (call : Codes → WsControl.Run Unit) (hcall : ∀ text, (call text).outcome ≠ .raised)
      (id : Option Codes) (hends : (WsControl.Run.ofOption id >>= call).outcome = .raised) :
      (WsControl.Run.ofOption id >>= call).calls = [] := by
    cases id with
    | none => rfl
    | some text =>
        have hreturned : (WsControl.Run.ofOption (some text)).outcome = .returned text := rfl
        rw [WsControl.bind_outcome hreturned] at hends
        exact absurd hends (hcall text)
  have hswitch (text : Codes) : (WsControl.Run.call (.switch text)
      ((Host.ofTabs spawn s).switch text)).outcome ≠ .raised := by
    rw [WsControl.switch_ofTabs h]
    exact fun heq => by cases heq
  have hclose (text : Codes) : (WsControl.Run.call (.close text)
      ((Host.ofTabs spawn s).close text)).outcome ≠ .raised := by
    rw [WsControl.close_ofTabs h]
    exact fun heq => by cases heq
  cases action with
  | new =>
      exact absurd hraised (WsControl.bind_not_raised (WsControl.create_ofTabs h) hswitch)
  | switch => exact hid _ hswitch _ hraised
  | close => exact hid _ hclose _ hraised
  | list => rfl

theorem forall_bind {α β : Type} {P : Call → Prop} {r : WsControl.Run α} {f : α → WsControl.Run β}
    (hr : ∀ call ∈ r.calls, P call) (hf : ∀ a, ∀ call ∈ (f a).calls, P call) :
    ∀ call ∈ (r >>= f).calls, P call := by
  change ∀ call ∈ (WsControl.Run.bind r f).calls, P call
  unfold WsControl.Run.bind
  split
  · exact fun call hcall => (List.mem_append.mp hcall).elim (hr call) (hf _ call)
  · exact hr
  · exact hr

theorem bind_of_returned {r : WsControl.Run Unit} (h : r.outcome = .returned ())
    (f : Unit → WsControl.Run Unit) : (r >>= f).calls = r.calls ++ (f ()).calls := by
  change (WsControl.Run.bind r f).calls = _
  rw [WsControl.Run.bind, h]

theorem bind_of_raised {r : WsControl.Run Unit} (h : r.outcome = .raised)
    (f : Unit → WsControl.Run Unit) : (r >>= f).calls = r.calls := by
  change (WsControl.Run.bind r f).calls = _
  rw [WsControl.Run.bind, h]

theorem except_of_raised {r : WsControl.Run Unit} (h : r.outcome = .raised)
    (f : Codes → WsControl.Run Unit) : r.exceptValueError f = r := by
  rw [WsControl.Run.exceptValueError, h]

theorem Reported.append {calls more : List Call} (h : Reported calls)
    (hmore : ∀ call ∈ more, Neutral call) : Reported (calls ++ more) := by
  rcases h with hneutral | ⟨front, back, rfl, hback⟩
  · exact .inl fun call hcall => (List.mem_append.mp hcall).elim (hneutral call) (hmore call)
  · exact .inr ⟨front, back ++ more, by simp, fun call hcall =>
      (List.mem_append.mp hcall).elim (hback call) (hmore call)⟩

theorem reported_perform (h : Geometry.Tabs.Applied s none) (data : List (Codes × Json))
    (action : WsControl.Action) :
    Reported (WsControl.perform py (Host.ofTabs spawn s) data action).calls := by
  have hnone (id : Option ℤ) : ∀ call ∈ (WsControl.Run.ofOption id).calls, Neutral call := by
    cases id <;> exact fun call hcall => absurd hcall List.not_mem_nil
  cases action with
  | resize =>
      exact .inl (forall_bind (hnone _) fun _ => forall_bind (hnone _) fun _ call hcall =>
        List.mem_singleton.mp hcall ▸ trivial)
  | togglePty =>
      rw [WsControl.perform]
      split
      · exact .inl fun call hcall => List.mem_singleton.mp hcall ▸ trivial
      · exact .inl fun call hcall => absurd hcall List.not_mem_nil
  | session action =>
      rw [WsControl.perform, WsControl.handleSessionAction]
      generalize htry : WsControl.trySession py (Host.ofTabs spawn s) data action = attempt
      by_cases hraised : attempt.outcome = .raised
      · refine .inl ?_
        have hcalls : attempt.calls = [] := htry ▸ trySession_raised h (htry ▸ hraised)
        rw [except_of_raised hraised, bind_of_raised hraised, hcalls]
        exact fun call hcall => absurd hcall List.not_mem_nil
      · have hcaught := WsControl.exceptValueError_outcome (f := fun error => WsControl.Run.call
          (.broadcast (WsControl.errorText error)) (.returned ())) hraised fun _ => rfl
        refine .inr ⟨_, [], bind_of_returned hcaught _, fun call hcall => ?_⟩
        exact absurd hcall List.not_mem_nil

/-- Whatever a client sends, every change of the manager is reported. -/
theorem reported_handle (h : Geometry.Tabs.Applied s none) (payload : List UInt8) :
    Reported (handleClientMessage py (Host.ofTabs spawn s) payload) := by
  have hinput (active : Bool) :
      ∀ call ∈ WsControl.writeInput active payload, Neutral call := by
    intro call hcall
    cases active <;> simp [WsControl.writeInput] at hcall
    · exact hcall ▸ trivial
    · rcases hcall with rfl | rfl <;> trivial
  cases hcontrol : WsControl.controlObject payload with
  | none =>
      rw [WsControl.handleClientMessage_of_none hcontrol]
      exact .inl (hinput _)
  | some control =>
      obtain ⟨action, data⟩ := control
      have hperform := @reported_perform py spawn s h data action
      by_cases hreturns : WsControl.Returns py (Host.ofTabs spawn s) action data
      · rw [WsControl.handleClientMessage_of_returns hcontrol hreturns]
        exact hperform
      · rw [WsControl.input_of_not_returns hcontrol hreturns, WsControl.partialCalls]
        split
        · exact hperform.append (hinput _)
        · exact .inl (hinput _)

end Calls

/-! ## In every state reached -/

/-- A run of the manager leads to these tabs. -/
abbrev Reached (tabs : Geometry.Tabs) : Prop :=
  Reach Geometry.Tabs.step Geometry.Tabs.SixteenBit Geometry.Tabs.start tabs

section Reached

variable {py : Interpreter} {spawn : Geometry.Tabs.Spawn} {s s' : System}

theorem fst_serve (tabs : Geometry.Tabs) (calls : List Call) :
    (serve spawn busy tabs calls).1 = calls.foldl (afterCall spawn) tabs := by
  induction calls generalizing tabs with
  | nil => rfl
  | cons call calls ih =>
      rw [List.foldl_cons, ← ih]
      cases call <;> rfl

/-- A call is an operation of the manager, or none. -/
theorem reach_afterCall {tabs : Geometry.Tabs} (h : Reached tabs)
    {call : Call} (hsmall : ∀ cols rows, call = .resize cols rows →
      0 < cols → 0 < rows → cols ≤ 65535 ∧ rows ≤ 65535) :
    Reached (afterCall spawn tabs call) := by
  have hnext (op : Geometry.Tabs.Op) {tabs' : Geometry.Tabs}
      (hok : Geometry.Tabs.SixteenBit tabs op)
      (hstep : tabs.step op = some tabs') : Reached tabs' :=
    .next h hok hstep
  cases call with
  | data | input | togglePty | broadcast | sendSessionsState => exact h
  | resize cols rows => exact hnext (.resize cols rows) (hsmall cols rows rfl) rfl
  | create => exact hnext (.create true spawn) trivial rfl
  | switch text =>
      change Reach _ _ _ (tabs.switch (session? tabs text))
      cases session? tabs text with
      | none => exact h
      | some sessionId => exact hnext (.switch sessionId) trivial rfl
  | close text =>
      dsimp only [afterCall]
      cases session? tabs text with
      | none => exact h
      | some sessionId => exact hnext (.close sessionId spawn) trivial rfl

theorem reach_serve {tabs : Geometry.Tabs} (h : Reached tabs)
    {calls : List Call} (hsmall : ∀ cols rows, .resize cols rows ∈ calls →
      0 < cols → 0 < rows → cols ≤ 65535 ∧ rows ≤ 65535) :
    Reached (serve spawn busy tabs calls).1 := by
  rw [fst_serve]
  induction calls generalizing tabs with
  | nil => exact h
  | cons call calls ih =>
      have hfirst := @reach_afterCall spawn tabs h call fun cols rows hcall =>
        hsmall cols rows (hcall ▸ List.mem_cons_self)
      exact ih hfirst fun cols rows hmem => hsmall cols rows (List.mem_cons_of_mem _ hmem)

/-- After a handler that reports, the page shows the manager again. -/
theorem received_shows {calls : List Call} (hreported : Reported calls)
    (hstrip : ∃ busy, s.strip = Strip.of busy s.tabs.manager) :
    ∃ busy', (s.received (serve spawn busy s.tabs calls).1 (serve spawn busy s.tabs calls).2).strip
      = Strip.of busy' (serve spawn busy s.tabs calls).1.manager := by
  rcases @serve_reported busy spawn s.tabs calls hreported with ⟨hsent, hmanager⟩ | hlast
  · rw [hmanager, hsent]
    exact hstrip
  · obtain ⟨sent, hsent⟩ := List.getLast?_eq_some_iff.mp hlast
    refine ⟨busy, ?_⟩
    rw [System.received, hsent]
    dsimp only
    rw [List.filterMap_append, List.filterMap_cons, onText_sessionsState, List.filterMap_nil,
      List.getLastD_concat]

/-- An operation of a shell, not of the manager. -/
def OfShell : Geometry.Tabs.Op → Prop
  | .enter .. | .exit _ | .leave _ => True
  | .resize .. | .create .. | .switch _ | .close .. => False

theorem manager_step {tabs tabs' : Geometry.Tabs} {op : Geometry.Tabs.Op}
    (hstep : tabs.step op = some tabs')
    (hshell : OfShell op) : tabs'.manager = tabs.manager := by
  cases op with
  | enter sessionId spawn =>
      rw [Geometry.Tabs.step] at hstep
      split at hstep
      · exact Option.some.inj hstep ▸ manager_enter sessionId
      · cases hstep
  | exit sessionId =>
      rw [Geometry.Tabs.step] at hstep
      split at hstep
      · exact Option.some.inj hstep ▸ rfl
      · cases hstep
  | leave sessionId => exact Option.some.inj hstep ▸ rfl
  | resize | create | switch | close => exact hshell.elim

/-- The tabs are those of a run of the manager, and the page shows them. -/
def Shown (s : System) : Prop :=
  Reached s.tabs ∧
    ∃ busy, s.strip = Strip.of busy s.tabs.manager

theorem shown_shell (h : Shown s) {op : Geometry.Tabs.Op} (hok : Geometry.Tabs.SixteenBit s.tabs op)
    (hshell : OfShell op)
    (hstep : (s.tabs.step op).map (fun tabs => { s with tabs }) = some s') : Shown s' := by
  obtain ⟨tabs, htabs, rfl⟩ := Option.map_eq_some_iff.mp hstep
  exact ⟨.next h.1 hok htabs, manager_step htabs hshell ▸ h.2⟩

theorem shown_step (h : Shown s) {a : Step} (hok : SmallResizes py s a)
    (hstep : step py s a = some s') : Shown s' := by
  cases a with
  | message payload spawn busy =>
      obtain rfl := Option.some.inj hstep
      have hreported :=
        @reported_handle py spawn s.tabs (Geometry.Tabs.applied_of_reach h.1) payload
      exact ⟨reach_serve h.1 hok, received_shows hreported h.2⟩
  | enter sessionId spawn =>
      exact @shown_shell s s' h (.enter sessionId spawn) trivial trivial hstep
  | exit sessionId => exact @shown_shell s s' h (.exit sessionId) trivial trivial hstep
  | leave sessionId => exact @shown_shell s s' h (.leave sessionId) trivial trivial hstep

theorem shown_start (spawn : Geometry.Tabs.Spawn) (busy : SessionId → Bool) :
    Shown (start spawn busy) := by
  have hcreate : Geometry.Tabs.start.step (.create true spawn)
      = some (Geometry.Tabs.start.create true spawn) := rfl
  have hok : Geometry.Tabs.SixteenBit Geometry.Tabs.start (.create true spawn) := trivial
  exact ⟨.next .start hok hcreate, busy, rfl⟩

theorem shown_of_reach (h : Reach (step py) (SmallResizes py) (start spawn busy) s) : Shown s :=
  h.invariant Shown (shown_start spawn busy) fun _ _ _ hs hok hstep => shown_step hs hok hstep

end Reached

end TabStrip

end Zmux
