import Mathlib.Data.List.Infix
import Mathlib.Logic.Function.Basic
import Mathlib.Tactic.SplitIfs
import Zmux.Runs
import Zmux.Text
import Zmux.Utf8

/-!
# The token gate

`_handle_client` of `ws_server.py` for any number of connections, and the
calls that send frames to all clients, which any thread makes.

A connection is `Admitted` when its handshake is read and answered with
101. Everything that trusts a connection goes back to this: the handlers
past the handshake, the set of clients, the copies of it that calls work
through, what was sent and what was routed (`Trusts`). A step adds none
that is not admitted (`trusts_step`) and takes no admission back
(`admitted_step`). What 101 asks for is in `authorized_of_switching`.
-/

namespace Zmux

namespace TokenGate

/-! ## The handshake -/

/-- `urlparse` and `parse_qs`, up to the values of `token` (`none` is an
exception), `str.lower` beyond ASCII, `_compute_accept_key`, and the token
of the installation. -/
structure Env where
  tokenList : List Char → Option (List (List Char))
  lowerOther : List Char → List Char
  acceptKey : List Char → List Char
  authToken : List Char

/-- `data.split(needle, 1)[0]`. -/
def beforeFirst (needle : List UInt8) : List UInt8 → List UInt8
  | [] => []
  | b :: bs => if needle <+: b :: bs then [] else b :: beforeFirst needle bs

/-- `text.split("\r\n")`, as the first line and the others. -/
def splitLines : List Char → List Char × List (List Char)
  | '\r' :: '\n' :: rest => ([], (splitLines rest).1 :: (splitLines rest).2)
  | c :: rest => (c :: (splitLines rest).1, (splitLines rest).2)
  | [] => ([], [])

def isAscii (text : List Char) : Bool := text.all fun c => c.toNat < 128

def lower (env : Env) (text : List Char) : List Char :=
  if isAscii text then text.map Char.toLower else env.lowerOther text

/-- A header line; one without a colon is left out. -/
def headerLine (env : Env) (line : List Char) : Option (List Char × List Char) :=
  if ':' ∈ line then
    some (lower env (strip (line.takeWhile (· ≠ ':'))),
      strip ((line.dropWhile (· ≠ ':')).drop 1))
  else none

def crlfcrlf : List UInt8 := [13, 10, 13, 10]

/-- `_read_http_headers` of what was received: the items of the header
dict in the order they are set, and the request line. -/
def readHttpHeaders (env : Env) (buffer : List UInt8) :
    List (List Char × List Char) × List Char :=
  let (requestLine, lines) := splitLines (Utf8.decode [] (beforeFirst crlfcrlf buffer))
  (lines.filterMap (headerLine env), requestLine)

/-- `headers.get(key)`; the last item set counts. -/
def getHeader (headers : List (List Char × List Char)) (key : List Char) : Option (List Char) :=
  (headers.reverse.find? fun item => item.1 = key).map Prod.snd

/-- `text.split()`. -/
def words (text : List Char) : List (List Char) := (text.splitOnP isSpace).filter (· ≠ [])

/-- `hmac.compare_digest` of two strings; `none` is its `TypeError`. -/
def compareDigest (a b : List Char) : Option Bool :=
  if isAscii a ∧ isAscii b then some (a = b) else none

/-- `_verify_token`. -/
def verifyToken (env : Env) (requestLine : List Char) : Bool :=
  match words requestLine with
  | _ :: path :: _ =>
    match env.tokenList path with
    | some (token :: _) => (compareDigest token env.authToken).getD false
    | _ => false
  | _ => false

/-- How the handshake is answered. -/
inductive Answer where
  | close
  | unauthorized
  | badRequest
  | switching (secKey : List Char)
deriving DecidableEq

def secWebSocketKey : List Char := "sec-websocket-key".toList

def answer (env : Env) (buffer : List UInt8) : Answer :=
  let (headers, requestLine) := readHttpHeaders env buffer
  if headers = [] ∨ requestLine = [] then .close
  else if verifyToken env requestLine then
    match getHeader headers secWebSocketKey with
    | none | some [] => .badRequest
    | some (c :: secKey) => .switching (c :: secKey)
  else .unauthorized

/-- What is sent for it. -/
def Answer.response (env : Env) : Answer → List Char
  | .close => []
  | .unauthorized => "HTTP/1.1 401 Unauthorized\r\nConnection: close\r\n\r\n".toList
  | .badRequest => "HTTP/1.1 400 Bad Request\r\nConnection: close\r\n\r\n".toList
  | .switching secKey =>
    ("HTTP/1.1 101 Switching Protocols\r\nUpgrade: websocket\r\n"
      ++ "Connection: Upgrade\r\nSec-WebSocket-Accept: ").toList
      ++ env.acceptKey secKey ++ "\r\n\r\n".toList

/-- The request line has the token as a value of `token`, and a header has
a key that is not empty. -/
def Authorized (env : Env) (buffer : List UInt8) : Prop :=
  let (headers, requestLine) := readHttpHeaders env buffer
  (∃ path tokens, (words requestLine)[1]? = some path ∧ env.tokenList path = some tokens
    ∧ env.authToken ∈ tokens)
  ∧ ∃ value, (secWebSocketKey, value) ∈ headers ∧ value ≠ []

theorem verifyToken_eq_true {env : Env} {requestLine : List Char}
    (h : verifyToken env requestLine = true) :
    ∃ path tokens, (words requestLine)[1]? = some path ∧ env.tokenList path = some tokens
      ∧ env.authToken ∈ tokens := by
  rw [verifyToken] at h
  split at h
  · rename_i method path rest hwords
    split at h
    · rename_i token tokens htokens
      refine ⟨path, token :: tokens, by rw [hwords]; rfl, htokens, ?_⟩
      rw [compareDigest] at h
      split at h
      · rw [← of_decide_eq_true h]
        exact List.mem_cons_self
      · cases h
    · cases h
  · cases h

/-- What the handler asks for before 101. -/
theorem authorized_of_switching {env : Env} {buffer : List UInt8} {secKey : List Char}
    (h : answer env buffer = .switching secKey) : Authorized env buffer := by
  rw [answer] at h
  rw [Authorized]
  generalize readHttpHeaders env buffer = read at h ⊢
  obtain ⟨headers, requestLine⟩ := read
  dsimp only at h ⊢
  split_ifs at h with hempty hverify
  · refine ⟨verifyToken_eq_true hverify, ?_⟩
    cases hget : getHeader headers secWebSocketKey with
    | none => rw [hget] at h; cases h
    | some value =>
      obtain ⟨item, hfind, hvalue⟩ := Option.map_eq_some_iff.mp hget
      have hkey := List.find?_some hfind
      have hmem := List.mem_reverse.mp (List.mem_of_find?_eq_some hfind)
      rw [← of_decide_eq_true hkey]
      refine ⟨item.2, hmem, ?_⟩
      rintro hnil
      rw [hget, ← hvalue, hnil] at h
      cases h

/-! ## The server -/

/-- Where `_handle_client` is. -/
inductive Pc where
  | absent
  | reading
  /-- The handshake is read. -/
  | answering
  /-- 101 is sent. -/
  | registering
  | registered
  /-- Sending the frames of the replay. -/
  | replaying (frames : List (List UInt8))
  /-- In `_send_sessions_state` after the replay. -/
  | stating
  /-- At the top of the message loop. -/
  | serving
  /-- In `_read_frame`. -/
  | waiting
  | ponging (payload : List UInt8)
  /-- In `_handle_client_message`. -/
  | handling
  /-- In the `finally` block. -/
  | leaving
  | finished
deriving DecidableEq

/-- Past the handshake. -/
def Pc.passed : Pc → Bool
  | .registering | .registered | .replaying _ | .stating | .serving | .waiting | .ponging _
  | .handling => true
  | .absent | .reading | .answering | .leaving | .finished => false

/-- `broadcast` and `_send_sessions_state`. -/
inductive Kind where
  | broadcast
  | state
deriving DecidableEq

def Kind.opcode : Kind → UInt8
  | .broadcast => 2
  | .state => 1

/-- Where a thread is in one of these calls: the copy of `clients` it
works through, and the clients it is to unregister. -/
inductive Call (Sock : Type*) where
  | idle
  | called (kind : Kind) (payload : List UInt8)
  | sending (kind : Kind) (payload : List UInt8) (targets dead : List Sock)

def Call.targets {Sock : Type*} : Call Sock → List Sock
  | .sending _ _ targets _ => targets
  | _ => []

inductive Sent where
  | response (text : List Char)
  | frame (opcode : UInt8) (payload : List UInt8)
deriving DecidableEq

/-- `handshake` is what `_read_http_headers` has received. A call is made
by the thread of a handler or by another thread. What was sent, if only in
part, and what was routed are ghosts. -/
structure Server (Sock Thread : Type*) where
  isRunning : Bool
  clients : List Sock
  pc : Sock → Pc
  handshake : Sock → List UInt8
  call : Sock ⊕ Thread → Call Sock
  sent : List (Sock × Sent)
  routed : List (Sock × List UInt8)

inductive Action (Sock Thread : Type*) where
  | accept (sock : Sock)
  | recv (sock : Sock) (chunk : List UInt8)
  /-- The answer to the handshake; a send raises or not. -/
  | answer (sock : Sock) (ok : Bool)
  | register (sock : Sock)
  | readScrollback (sock : Sock) (scrollback : List UInt8)
  | replay (sock : Sock) (ok : Bool)
  | sendState (sock : Sock) (payload : List UInt8)
  | turn (sock : Sock)
  | frame (sock : Sock) (opcode : UInt8) (payload : List UInt8)
  | pong (sock : Sock) (ok : Bool)
  /-- What the handler called returns. -/
  | back (sock : Sock)
  | raise (sock : Sock)
  | unregister (sock : Sock)
  | call (c : Sock ⊕ Thread) (kind : Kind) (payload : List UInt8)
  | copy (c : Sock ⊕ Thread) (order : List Sock)
  | push (c : Sock ⊕ Thread) (ok : Bool)
  | drop (c : Sock ⊕ Thread)
  | done (c : Sock ⊕ Thread)
  /-- The first and the last lines of `stop`. -/
  | halt
  | clear

namespace Server

section Steps

variable {Sock Thread : Type*} [DecidableEq Sock] [DecidableEq Thread]

def start : Server Sock Thread where
  isRunning := true
  clients := []
  pc _ := .absent
  handshake _ := []
  call _ := .idle
  sent := []
  routed := []

def goto (s : Server Sock Thread) (sock : Sock) (pc : Pc) : Server Sock Thread :=
  { s with pc := Function.update s.pc sock pc }

def receive (s : Server Sock Thread) (sock : Sock) (chunk : List UInt8) : Server Sock Thread :=
  { s with handshake := Function.update s.handshake sock (s.handshake sock ++ chunk) }

def setClients (s : Server Sock Thread) (clients : List Sock) : Server Sock Thread :=
  { s with clients := clients }

def setCall (s : Server Sock Thread) (c : Sock ⊕ Thread) (call : Call Sock) :
    Server Sock Thread :=
  { s with call := Function.update s.call c call }

def send (s : Server Sock Thread) (sock : Sock) (m : Sent) : Server Sock Thread :=
  { s with sent := s.sent ++ [(sock, m)] }

def route (s : Server Sock Thread) (sock : Sock) (payload : List UInt8) : Server Sock Thread :=
  { s with routed := s.routed ++ [(sock, payload)] }

/-- An exception ends the replay, or else the handler. -/
def raise (s : Server Sock Thread) (sock : Sock) : Option (Server Sock Thread) :=
  match s.pc sock with
  | .absent | .leaving | .finished => none
  | .registered | .replaying _ | .stating =>
    some ((s.setCall (.inl sock) .idle).goto sock .serving)
  | .reading | .answering | .registering | .serving | .waiting | .ponging _ | .handling =>
    some ((s.setCall (.inl sock) .idle).goto sock .leaving)

/-- A step of the calls. -/
def stepCall (s : Server Sock Thread) : Action Sock Thread → Option (Server Sock Thread)
  | .copy c order =>
    match s.call c with
    | .called kind payload =>
      if order.Perm s.clients then some (s.setCall c (.sending kind payload order [])) else none
    | _ => none
  | .push c ok =>
    match s.call c with
    | .sending kind payload (sock :: targets) dead =>
      if kind = .broadcast ∨ dead = [] then
        let dead := if ok then dead else dead ++ [sock]
        some ((s.send sock (.frame kind.opcode payload)).setCall c
          (.sending kind payload targets dead))
      else none
    | _ => none
  | .drop c =>
    match s.call c with
    | .sending kind payload targets (sock :: dead) =>
      if kind = .state ∨ targets = [] then
        some ((s.setClients (s.clients.filter (· ≠ sock))).setCall c
          (.sending kind payload targets dead))
      else none
    | _ => none
  | .done c =>
    match s.call c with
    | .sending _ _ [] [] => some (s.setCall c .idle)
    | _ => none
  | _ => none

def step (env : Env) (resetTerminalScreen : List UInt8) (s : Server Sock Thread) :
    Action Sock Thread → Option (Server Sock Thread)
  | .accept sock =>
    if s.pc sock = .absent then
      some (s.goto sock (if s.isRunning then .reading else .finished))
    else none
  | .recv sock chunk =>
    if s.pc sock = .reading ∧ chunk.length ≤ 1024 then
      let s := s.receive sock chunk
      some (if chunk = [] ∨ crlfcrlf <:+: s.handshake sock then s.goto sock .answering else s)
    else none
  | .answer sock ok =>
    if s.pc sock = .answering then
      let reply := answer env (s.handshake sock)
      match reply with
      | .close => some (s.goto sock .leaving)
      | .unauthorized | .badRequest =>
        some ((s.send sock (.response (reply.response env))).goto sock .leaving)
      | .switching _ =>
        some ((s.send sock (.response (reply.response env))).goto sock
          (if ok then .registering else .leaving))
    else none
  | .register sock =>
    if s.pc sock = .registering then
      some ((s.setClients (s.clients.insert sock)).goto sock .registered)
    else none
  | .readScrollback sock scrollback =>
    if s.pc sock = .registered then
      some (s.goto sock (.replaying
        (resetTerminalScreen :: if scrollback = [] then [] else [scrollback])))
    else none
  | .replay sock ok =>
    match s.pc sock with
    | .replaying (payload :: frames) =>
      some ((s.send sock (.frame 2 payload)).goto sock (if ok then .replaying frames else .serving))
    | _ => none
  | .sendState sock payload =>
    if s.pc sock = .replaying [] then
      some ((s.setCall (.inl sock) (.called .state payload)).goto sock .stating)
    else none
  | .turn sock =>
    if s.pc sock = .serving then
      some (s.goto sock (if s.isRunning then .waiting else .leaving))
    else none
  | .frame sock opcode payload =>
    if s.pc sock = .waiting then
      if opcode = 8 then some (s.goto sock .leaving)
      else if opcode = 9 then some (s.goto sock (.ponging payload))
      else if opcode ∈ [1, 2] then some ((s.route sock payload).goto sock .handling)
      else some (s.goto sock .serving)
    else none
  | .pong sock ok =>
    match s.pc sock with
    | .ponging payload =>
      some ((s.send sock (.frame 10 payload)).goto sock (if ok then .serving else .leaving))
    | _ => none
  | .back sock =>
    match s.pc sock, s.call (.inl sock) with
    | .stating, .idle | .handling, .idle => some (s.goto sock .serving)
    | _, _ => none
  | .raise sock => s.raise sock
  | .unregister sock =>
    if s.pc sock = .leaving then
      some ((s.setClients (s.clients.filter (· ≠ sock))).goto sock .finished)
    else none
  | .call (.inl sock) kind payload =>
    match s.pc sock, s.call (.inl sock) with
    | .handling, .idle => some (s.setCall (.inl sock) (.called kind payload))
    | _, _ => none
  | .call (.inr t) kind payload =>
    match s.call (.inr t) with
    | .idle => some (s.setCall (.inr t) (.called kind payload))
    | _ => none
  | .halt => some { s with isRunning := false }
  | .clear => some (s.setClients [])
  | a => s.stepCall a

end Steps

/-! ## Admission -/

variable {Sock Thread : Type*} {env : Env} {resetTerminalScreen : List UInt8}

/-- The handshake is over and was answered with 101. -/
def Admitted (env : Env) (s : Server Sock Thread) (sock : Sock) : Prop :=
  s.pc sock ≠ .absent ∧ s.pc sock ≠ .reading ∧
    ∃ secKey, answer env (s.handshake sock) = .switching secKey

/-- Whatever lets a connection take part. -/
inductive Trusts (s : Server Sock Thread) (sock : Sock) : Prop
  | client (h : sock ∈ s.clients)
  | passed (h : (s.pc sock).passed = true)
  | target (c : Sock ⊕ Thread) (h : sock ∈ (s.call c).targets)
  | frame (opcode : UInt8) (payload : List UInt8) (h : (sock, .frame opcode payload) ∈ s.sent)
  | routed (payload : List UInt8) (h : (sock, payload) ∈ s.routed)

/-- Each way to be trusted in `s'` was one in `s`. The parts that an update
leaves as they are need no proof. -/
structure Narrows (s s' : Server Sock Thread) : Prop where
  client : ∀ sock ∈ s'.clients, Trusts s sock := by exact fun _ h => .client h
  passed : ∀ sock, (s'.pc sock).passed = true → Trusts s sock := by exact fun _ h => .passed h
  target : ∀ sock c, sock ∈ (s'.call c).targets → Trusts s sock := by
    exact fun _ c h => .target c h
  frame : ∀ sock opcode payload, (sock, .frame opcode payload) ∈ s'.sent → Trusts s sock := by
    exact fun _ opcode payload h => .frame opcode payload h
  routed : ∀ sock payload, (sock, payload) ∈ s'.routed → Trusts s sock := by
    exact fun _ payload h => .routed payload h

theorem Narrows.trusts {s s' : Server Sock Thread} (h : Narrows s s') (sock : Sock)
    (hsock : Trusts s' sock) : Trusts s sock := by
  cases hsock with
  | client hclient => exact h.client sock hclient
  | passed hpassed => exact h.passed sock hpassed
  | target c htarget => exact h.target sock c htarget
  | frame opcode payload hframe => exact h.frame sock opcode payload hframe
  | routed payload hrouted => exact h.routed sock payload hrouted

/-- Admissions last, and only the admitted become trusted. -/
structure Keeps (env : Env) (s s' : Server Sock Thread) : Prop where
  admitted : ∀ sock, Admitted env s sock → Admitted env s' sock
  trusts : ∀ sock, Trusts s' sock → Trusts s sock ∨ Admitted env s' sock

theorem Keeps.trans {s s₁ s' : Server Sock Thread} (h : Keeps env s s₁) (h' : Keeps env s₁ s') :
    Keeps env s s' where
  admitted sock hsock := h'.admitted sock (h.admitted sock hsock)
  trusts sock hsock := by
    rcases h'.trusts sock hsock with h₁ | h₁
    · exact (h.trusts sock h₁).imp_right (h'.admitted sock)
    · exact Or.inr h₁

variable {s : Server Sock Thread} {sock : Sock}

theorem keeps_send {m : Sent} (h : ∀ opcode payload, m = .frame opcode payload → Trusts s sock) :
    Keeps env s (s.send sock m) where
  admitted _ hsock := hsock
  trusts sock' hsock := by
    have hnarrows : Narrows s (s.send sock m) := {
      frame := by
        intro sock' opcode payload hframe
        rcases List.mem_append.mp hframe with hframe | hframe
        · exact .frame opcode payload hframe
        · obtain ⟨rfl, hm⟩ := Prod.mk.inj (List.mem_singleton.mp hframe)
          exact h opcode payload hm.symm }
    exact Or.inl (hnarrows.trusts sock' hsock)

theorem keeps_route (h : Trusts s sock) (payload : List UInt8) :
    Keeps env s (s.route sock payload) where
  admitted _ hsock := hsock
  trusts sock' hsock := by
    have hnarrows : Narrows s (s.route sock payload) := {
      routed := by
        intro sock' p hrouted
        rcases List.mem_append.mp hrouted with hrouted | hrouted
        · exact .routed p hrouted
        · exact (Prod.mk.inj (List.mem_singleton.mp hrouted)).1 ▸ h }
    exact Or.inl (hnarrows.trusts sock' hsock)

theorem keeps_setClients {clients : List Sock} (h : ∀ sock ∈ clients, Trusts s sock) :
    Keeps env s (s.setClients clients) where
  admitted _ hsock := hsock
  trusts sock' hsock := by
    have hnarrows : Narrows s (s.setClients clients) := { client := h }
    exact Or.inl (hnarrows.trusts sock' hsock)

section Updates

variable [DecidableEq Sock]

theorem keeps_setCall [DecidableEq Thread] {c : Sock ⊕ Thread} {call : Call Sock}
    (h : ∀ sock ∈ call.targets, Trusts s sock) : Keeps env s (s.setCall c call) where
  admitted _ hsock := hsock
  trusts sock' hsock := by
    have hnarrows : Narrows s (s.setCall c call) := {
      target := by
        intro sock' c' htarget
        by_cases heq : c' = c
        · subst heq
          rw [show (s.setCall c' call).call c' = call from Function.update_self ..] at htarget
          exact h sock' htarget
        · rw [show (s.setCall c call).call c' = s.call c' from
            Function.update_of_ne heq ..] at htarget
          exact .target c' htarget }
    exact Or.inl (hnarrows.trusts sock' hsock)

theorem goto_pc (s : Server Sock Thread) (sock : Sock) (pc : Pc) : (s.goto sock pc).pc sock = pc :=
  Function.update_self ..

theorem goto_pc_ne {sock' : Sock} (h : sock' ≠ sock) (pc : Pc) :
    (s.goto sock pc).pc sock' = s.pc sock' :=
  Function.update_of_ne h ..

/-- Of one connection's handler, if it is not past the handshake now. -/
theorem trusts_goto {pc : Pc} {sock' : Sock} (h : Trusts (s.goto sock pc) sock') :
    Trusts s sock' ∨ sock' = sock ∧ pc.passed = true := by
  cases h with
  | client h => exact Or.inl (.client h)
  | target c h => exact Or.inl (.target c h)
  | frame opcode payload h => exact Or.inl (.frame opcode payload h)
  | routed payload h => exact Or.inl (.routed payload h)
  | passed h =>
      by_cases heq : sock' = sock
      · subst heq
        exact Or.inr ⟨rfl, goto_pc s sock' pc ▸ h⟩
      · exact Or.inl (.passed (goto_pc_ne heq pc ▸ h))

theorem admitted_goto_ne {pc : Pc} {sock' : Sock} (hne : sock' ≠ sock)
    (h : Admitted env s sock') : Admitted env (s.goto sock pc) sock' := by
  obtain ⟨habsent, hreading, hanswer⟩ := h
  rw [← goto_pc_ne hne pc] at habsent hreading
  exact ⟨habsent, hreading, hanswer⟩

theorem keeps_goto {pc : Pc} (habsent : pc ≠ .absent) (hreading : pc ≠ .reading)
    (hpassed : pc.passed = true → (s.pc sock).passed = true) : Keeps env s (s.goto sock pc) where
  admitted sock' hsock := by
    by_cases heq : sock' = sock
    · subst heq
      rw [Admitted, goto_pc]
      exact ⟨habsent, hreading, hsock.2.2⟩
    · exact admitted_goto_ne heq hsock
  trusts sock' hsock := by
    rcases trusts_goto hsock with h | ⟨rfl, h⟩
    · exact Or.inl h
    · exact Or.inl (.passed (hpassed h))

omit [DecidableEq Sock] in
theorem passed_of {pc : Pc} (hpc : s.pc sock = pc) (hpassed : pc.passed = true) :
    (s.pc sock).passed = true := by
  rw [hpc]
  exact hpassed

/-- A handler past the handshake goes on, not back. -/
theorem keeps_on {pc : Pc} (hpassed : (s.pc sock).passed = true)
    (habsent : pc ≠ .absent) (hreading : pc ≠ .reading) : Keeps env s (s.goto sock pc) :=
  keeps_goto habsent hreading fun _ => hpassed

/-- It may send a frame first. -/
theorem keeps_sendOn {pc : Pc} (hpassed : (s.pc sock).passed = true)
    (habsent : pc ≠ .absent) (hreading : pc ≠ .reading) (opcode : UInt8) (payload : List UInt8) :
    Keeps env s ((s.send sock (.frame opcode payload)).goto sock pc) := by
  have hsend : Keeps env s (s.send sock (.frame opcode payload)) :=
    keeps_send fun _ _ _ => .passed hpassed
  exact hsend.trans (keeps_on hpassed habsent hreading)

/-- The handler of a connection that is not admitted goes on to the answer. -/
theorem keeps_goto_before {pc : Pc} (hpc : s.pc sock = .absent ∨ s.pc sock = .reading)
    (hpassed : pc.passed = false) : Keeps env s (s.goto sock pc) where
  admitted sock' hsock := by
    refine admitted_goto_ne ?_ hsock
    rintro rfl
    exact hpc.elim hsock.1 hsock.2.1
  trusts sock' hsock := by
    rcases trusts_goto hsock with h | ⟨-, h⟩
    · exact Or.inl h
    · cases hpassed.symm.trans h

theorem keeps_receive (hpc : s.pc sock = .reading) (chunk : List UInt8) :
    Keeps env s (s.receive sock chunk) where
  admitted sock' hsock := by
    have hne : sock' ≠ sock := by
      rintro rfl
      exact hsock.2.1 hpc
    obtain ⟨habsent, hreading, hanswer⟩ := hsock
    have hsame : (s.receive sock chunk).handshake sock' = s.handshake sock' :=
      Function.update_of_ne hne ..
    exact ⟨habsent, hreading, hsame ▸ hanswer⟩
  trusts sock' hsock := by
    have hnarrows : Narrows s (s.receive sock chunk) := {}
    exact Or.inl (hnarrows.trusts sock' hsock)

/-- 101 admits. -/
theorem keeps_switching {secKey : List Char}
    (h : answer env (s.handshake sock) = .switching secKey) :
    Keeps env s (s.goto sock .registering) where
  admitted sock' hsock := by
    by_cases heq : sock' = sock
    · subst heq
      rw [Admitted, goto_pc]
      exact ⟨nofun, nofun, hsock.2.2⟩
    · exact admitted_goto_ne heq hsock
  trusts sock' hsock := by
    rcases trusts_goto hsock with h' | ⟨rfl, -⟩
    · exact Or.inl h'
    · refine Or.inr ?_
      rw [Admitted, goto_pc]
      exact ⟨nofun, nofun, secKey, h⟩

end Updates

/-! ## Steps -/

section Steps

variable [DecidableEq Sock] [DecidableEq Thread] {s s' : Server Sock Thread}
  {resetTerminalScreen : List UInt8}

theorem keeps_raise {sock : Sock} (hs : s.raise sock = some s') : Keeps env s s' := by
  have hidle : Keeps env s (s.setCall (.inl sock) .idle) := keeps_setCall nofun
  have hserving : (s.pc sock).passed = true →
      Keeps env s ((s.setCall (.inl sock) .idle).goto sock .serving) := fun hpassed =>
    hidle.trans (keeps_goto nofun nofun fun _ => hpassed)
  have hleaving : Keeps env s ((s.setCall (.inl sock) .idle).goto sock .leaving) :=
    hidle.trans (keeps_goto nofun nofun nofun)
  rw [raise] at hs
  cases hpc : s.pc sock with
  | absent | leaving | finished => rw [hpc] at hs; cases hs
  | registered | replaying | stating =>
      rw [hpc] at hs hserving
      obtain rfl := Option.some.inj hs
      exact hserving rfl
  | reading | answering | registering | serving | waiting | ponging | handling =>
      rw [hpc] at hs
      obtain rfl := Option.some.inj hs
      exact hleaving

/-- A call has its targets from the clients. -/
theorem keeps_stepCall {a : Action Sock Thread} (hs : s.stepCall a = some s') :
    Keeps env s s' := by
  cases a with
  | copy c order =>
      cases hcall : s.call c with
      | idle | sending => simp [stepCall, hcall] at hs
      | called kind payload =>
          simp only [stepCall, hcall, Option.ite_none_right_eq_some] at hs
          obtain ⟨hperm, hs⟩ := hs
          obtain rfl := Option.some.inj hs
          exact keeps_setCall fun sock hsock => .client (hperm.mem_iff.mp hsock)
  | push c ok =>
      match hcall : s.call c with
      | .idle | .called .. | .sending _ _ [] _ => simp [stepCall, hcall] at hs
      | .sending kind payload (sock :: targets) dead =>
          have htargets : (s.call c).targets = sock :: targets := by rw [hcall]; rfl
          simp only [stepCall, hcall, Option.ite_none_right_eq_some] at hs
          obtain ⟨-, hs⟩ := hs
          obtain rfl := Option.some.inj hs
          refine (keeps_send fun _ _ _ => ?_).trans (keeps_setCall fun sock' hsock => ?_)
          · exact .target c (htargets ▸ List.mem_cons_self)
          · exact .target c (htargets ▸ List.mem_cons_of_mem sock hsock)
  | drop c =>
      match hcall : s.call c with
      | .idle | .called .. | .sending _ _ _ [] => simp [stepCall, hcall] at hs
      | .sending kind payload targets (sock :: dead) =>
          have htargets : (s.call c).targets = targets := by rw [hcall]; rfl
          simp only [stepCall, hcall, Option.ite_none_right_eq_some] at hs
          obtain ⟨-, hs⟩ := hs
          obtain rfl := Option.some.inj hs
          refine (keeps_setClients fun sock' hsock => ?_).trans
            (keeps_setCall fun sock' hsock => ?_)
          · exact .client (List.mem_of_mem_filter hsock)
          · exact .target c (htargets ▸ hsock)
  | done c =>
      match hcall : s.call c with
      | .idle | .called .. | .sending _ _ (_ :: _) _ | .sending _ _ [] (_ :: _) =>
          simp [stepCall, hcall] at hs
      | .sending kind payload [] [] =>
          simp only [stepCall, hcall] at hs
          obtain rfl := Option.some.inj hs
          exact keeps_setCall nofun
  | _ => cases hs

/-- Of the four replies only 101 lets the handler past the handshake. -/
theorem keeps_answer {sock : Sock} {ok : Bool}
    (hs : s.step env resetTerminalScreen (.answer sock ok) = some s') : Keeps env s s' := by
  simp only [step, Option.ite_none_right_eq_some] at hs
  obtain ⟨-, hs⟩ := hs
  have hsend : ∀ reply : Answer, Keeps env s (s.send sock (.response (reply.response env))) :=
    fun _ => keeps_send nofun
  cases hanswer : TokenGate.answer env (s.handshake sock) with
  | close =>
      rw [hanswer] at hs
      obtain rfl := Option.some.inj hs
      exact keeps_goto nofun nofun nofun
  | unauthorized | badRequest =>
      rw [hanswer] at hs
      obtain rfl := Option.some.inj hs
      exact (hsend _).trans (keeps_goto nofun nofun nofun)
  | switching secKey =>
      rw [hanswer] at hs
      obtain rfl := Option.some.inj hs
      cases ok with
      | true => exact (hsend _).trans (keeps_switching hanswer)
      | false => exact (hsend _).trans (keeps_goto nofun nofun nofun)

theorem keeps_frame {sock : Sock} {opcode : UInt8} {payload : List UInt8}
    (hs : s.step env resetTerminalScreen (.frame sock opcode payload) = some s') :
    Keeps env s s' := by
  simp only [step, Option.ite_none_right_eq_some] at hs
  obtain ⟨hpc, hs⟩ := hs
  have hpassed := passed_of hpc rfl
  split_ifs at hs <;> obtain rfl := Option.some.inj hs
  · exact keeps_on hpassed nofun nofun
  · exact keeps_on hpassed nofun nofun
  · exact (keeps_route (.passed hpassed) payload).trans (keeps_on hpassed nofun nofun)
  · exact keeps_on hpassed nofun nofun

theorem keeps_step {a : Action Sock Thread} (hs : s.step env resetTerminalScreen a = some s') :
    Keeps env s s' := by
  cases a with
  | accept sock =>
      simp only [step, Option.ite_none_right_eq_some] at hs
      obtain ⟨hpc, hs⟩ := hs
      obtain rfl := Option.some.inj hs
      refine keeps_goto_before (Or.inl hpc) ?_
      cases s.isRunning <;> rfl
  | recv sock chunk =>
      simp only [step, Option.ite_none_right_eq_some] at hs
      obtain ⟨⟨hpc, -⟩, hs⟩ := hs
      obtain rfl := Option.some.inj hs
      split
      · exact (keeps_receive hpc chunk).trans (keeps_goto_before (Or.inr hpc) rfl)
      · exact keeps_receive hpc chunk
  | answer sock ok => exact keeps_answer hs
  | register sock =>
      simp only [step, Option.ite_none_right_eq_some] at hs
      obtain ⟨hpc, hs⟩ := hs
      obtain rfl := Option.some.inj hs
      have hpassed := passed_of hpc rfl
      refine (keeps_setClients fun sock' hsock => ?_).trans (keeps_on hpassed nofun nofun)
      rcases List.mem_insert_iff.mp hsock with rfl | hsock
      · exact .passed hpassed
      · exact .client hsock
  | readScrollback sock scrollback =>
      simp only [step, Option.ite_none_right_eq_some] at hs
      obtain ⟨hpc, hs⟩ := hs
      obtain rfl := Option.some.inj hs
      exact keeps_on (passed_of hpc rfl) nofun nofun
  | replay sock ok =>
      match hpc : s.pc sock with
      | .replaying (payload :: frames) =>
          have hpassed := passed_of hpc rfl
          simp only [step, hpc] at hs
          obtain rfl := Option.some.inj hs
          refine keeps_sendOn hpassed ?_ ?_ _ payload
          · cases ok <;> exact nofun
          · cases ok <;> exact nofun
      | .absent | .reading | .answering | .registering | .registered | .replaying [] | .stating
      | .serving | .waiting | .ponging _ | .handling | .leaving | .finished =>
          simp [step, hpc] at hs
  | sendState sock payload =>
      simp only [step, Option.ite_none_right_eq_some] at hs
      obtain ⟨hpc, hs⟩ := hs
      obtain rfl := Option.some.inj hs
      exact (keeps_setCall nofun).trans (keeps_on (passed_of hpc rfl) nofun nofun)
  | turn sock =>
      simp only [step, Option.ite_none_right_eq_some] at hs
      obtain ⟨hpc, hs⟩ := hs
      obtain rfl := Option.some.inj hs
      cases s.isRunning with
      | true => exact keeps_on (passed_of hpc rfl) nofun nofun
      | false => exact keeps_on (passed_of hpc rfl) nofun nofun
  | frame sock opcode payload => exact keeps_frame hs
  | pong sock ok =>
      match hpc : s.pc sock with
      | .ponging payload =>
          have hpassed := passed_of hpc rfl
          simp only [step, hpc] at hs
          obtain rfl := Option.some.inj hs
          refine keeps_sendOn hpassed ?_ ?_ _ payload
          · cases ok <;> exact nofun
          · cases ok <;> exact nofun
      | .absent | .reading | .answering | .registering | .registered | .replaying _ | .stating
      | .serving | .waiting | .handling | .leaving | .finished => simp [step, hpc] at hs
  | back sock =>
      have hback : (s.pc sock).passed = true → s.goto sock .serving = s' → Keeps env s s' := by
        rintro hpassed rfl
        exact keeps_on hpassed nofun nofun
      match hpc : s.pc sock, hcall : s.call (.inl sock) with
      | .stating, .idle | .handling, .idle =>
          simp only [step, hpc, hcall] at hs
          exact hback (passed_of hpc rfl) (Option.some.inj hs)
      | .stating, .called .. | .stating, .sending .. | .handling, .called .. | .handling, .sending ..
      | .absent, _ | .reading, _ | .answering, _ | .registering, _ | .registered, _
      | .replaying _, _ | .serving, _ | .waiting, _ | .ponging _, _ | .leaving, _ | .finished, _ =>
          simp [step, hpc, hcall] at hs
  | raise sock => exact keeps_raise hs
  | unregister sock =>
      simp only [step, Option.ite_none_right_eq_some] at hs
      obtain ⟨-, hs⟩ := hs
      obtain rfl := Option.some.inj hs
      refine (keeps_setClients fun sock' hsock => ?_).trans (keeps_goto nofun nofun nofun)
      exact .client (List.mem_of_mem_filter hsock)
  | call c kind payload =>
      have hcalled : s.setCall c (.called kind payload) = s' → Keeps env s s' := by
        rintro rfl
        exact keeps_setCall nofun
      cases c with
      | inr t =>
          cases hcall : s.call (.inr t) with
          | idle =>
              simp only [step, hcall] at hs
              exact hcalled (Option.some.inj hs)
          | called | sending => simp [step, hcall] at hs
      | inl sock =>
          simp only [step] at hs
          split at hs
          · exact hcalled (Option.some.inj hs)
          · cases hs
  | halt =>
      obtain rfl := Option.some.inj hs
      have hnarrows : Narrows s { s with isRunning := false } := {}
      exact ⟨fun _ hsock => hsock, fun sock hsock => Or.inl (hnarrows.trusts sock hsock)⟩
  | clear =>
      obtain rfl := Option.some.inj hs
      exact keeps_setClients nofun
  | copy c order => exact keeps_stepCall (a := .copy c order) hs
  | push c ok => exact keeps_stepCall (a := .push c ok) hs
  | drop c => exact keeps_stepCall (a := .drop c) hs
  | done c => exact keeps_stepCall (a := .done c) hs

end Steps

/-! ## Runs -/

theorem start_untrusted (sock : Sock) : ¬Trusts (start : Server Sock Thread) sock := by
  rintro (h | h | ⟨c, h⟩ | ⟨opcode, payload, h⟩ | ⟨payload, h⟩)
  all_goals cases h

section Runs

variable [DecidableEq Sock] [DecidableEq Thread] {s : Server Sock Thread}
  {resetTerminalScreen : List UInt8}

theorem admitted_of_trusts (h : Reach (step env resetTerminalScreen) Free start s) (sock : Sock)
    (htrusts : Trusts s sock) : Admitted env s sock := by
  refine h.invariant (fun s => ∀ sock, Trusts s sock → Admitted env s sock)
    (fun sock h => absurd h (start_untrusted sock)) ?_ sock htrusts
  intro s a s' ih _ hs sock hsock
  have hkeeps := keeps_step hs
  rcases hkeeps.trusts sock hsock with hbefore | hadmitted
  · exact hkeeps.admitted sock (ih sock hbefore)
  · exact hadmitted

/-- **Token gate.** A connection is a client, is sent a frame or has a
message routed only if its own handshake was authorized. -/
theorem token_gate (h : Reach (step env resetTerminalScreen) Free start s) (sock : Sock)
    (hsock : sock ∈ s.clients ∨ (∃ opcode payload, (sock, .frame opcode payload) ∈ s.sent)
      ∨ ∃ payload, (sock, payload) ∈ s.routed) :
    Authorized env (s.handshake sock) := by
  have htrusts : Trusts s sock := by
    rcases hsock with h | ⟨opcode, payload, h⟩ | ⟨payload, h⟩
    · exact .client h
    · exact .frame opcode payload h
    · exact .routed payload h
  obtain ⟨-, -, secKey, hanswer⟩ := admitted_of_trusts h sock htrusts
  exact authorized_of_switching hanswer

end Runs

/-! ## A connection -/

def sampleEnv : Env where
  tokenList path := if path = "/?token=secret".toList then some ["secret".toList] else some []
  lowerOther := id
  acceptKey _ := "HSmrc0sMlYUkAGmm5OPpG2HaGWk=".toList
  authToken := "secret".toList

def ascii (text : String) : List UInt8 := text.toList.map fun c => c.toNat.toUInt8

/-- The handshake comes in two parts; another thread broadcasts. -/
def connects : List (Action Unit Unit) :=
  [.accept (), .recv () (ascii "GET /?token=secret HTTP/1.1\r\nSec-WebSocket-Key: x3JJH"),
    .recv () (ascii "MbDL1EzLkh9GBhXDw==\r\n\r\n"), .answer () true, .register (),
    .call (.inr ()) .broadcast [36, 32], .copy (.inr ()) [()], .push (.inr ()) true]

theorem broadcast_is_authorized : ∃ s : Server Unit Unit,
    Reach (step sampleEnv []) Free start s ∧ ((), .frame 2 [36, 32]) ∈ s.sent ∧
      Authorized sampleEnv (s.handshake ()) := by
  have hrun : (replay (step sampleEnv []) Free start connects).map
      (fun s => decide (((), Sent.frame 2 [36, 32]) ∈ s.sent)) = some true := by
    decide +kernel
  obtain ⟨s, hreach, hsent⟩ := reach_of_replay hrun
  have hframe := of_decide_eq_true hsent
  exact ⟨s, hreach, hframe, token_gate hreach () (Or.inr (Or.inl ⟨2, [36, 32], hframe⟩))⟩

end Server

end TokenGate

end Zmux
