import Mathlib.Data.List.Count
import Mathlib.Order.Nat
import Zmux.Runs

/-!
# One connection at a time

`connectWebSocket`, `scheduleReconnect` and `enableManualRetry` of
`terminal.html` with the taps that retry by hand. A socket that closes
sets a timer for the next attempt; after `MAX_AUTO_RECONNECT` attempts the
page waits for a tap instead.

The handler of the tap looks whether the socket is open, but not whether
one is connecting or a timer is set, and the terminal container keeps it
for good. So there is one connection, and one timer, as long as nobody
taps while the page is about to connect by itself (`one_connection`).
-/

namespace Zmux

/-- `readyState` of a WebSocket. -/
inductive Link where
  | connecting
  | opened
  | closing
  | closed
deriving DecidableEq

/-- `CONNECTING` or `OPEN`. -/
def Link.isLive : Link → Bool
  | .connecting | .opened => true
  | .closing | .closed => false

def Link.isUnclosed : Link → Bool
  | .connecting | .opened | .closing => true
  | .closed => false

structure Reconnect where
  booted : Bool
  /-- All sockets `connectWebSocket` has created; the last one is `ws`. -/
  sockets : List Link
  /-- The timers that call `connectWebSocket`. -/
  timers : ℕ
  reconnectAttempts : ℕ
  everConnected : Bool
  bootHidden : Bool
  /-- `bootScreen.onclick` is `retry`. -/
  bootRetry : Bool
  /-- `manualRetryHandler` is set. -/
  manualRetry : Bool
  userScrolledUp : Bool
  /-- How often each broadcast is written to the terminal. -/
  copies : List ℕ

inductive ReconnectStep where
  /-- `constructs` says whether `new WebSocket` does not throw. -/
  | boot (constructs : Bool)
  | timer (constructs : Bool)
  | tapBoot (constructs : Bool)
  | tapContainer (constructs : Bool)
  | opened (i : ℕ)
  | error (i : ℕ)
  | closing (i : ℕ)
  | closed (i : ℕ)
  | hideBoot
  | scrolled (up : Bool)
  /-- `early` says whether the server has registered a socket that is
  still connecting here. -/
  | broadcast (early : Bool)

namespace Reconnect

def maxAutoReconnect : ℕ := 10

def start : Reconnect where
  booted := false
  sockets := []
  timers := 0
  reconnectAttempts := 0
  everConnected := false
  bootHidden := false
  bootRetry := false
  manualRetry := false
  userScrolledUp := false
  copies := []

/-- `ws && ws.readyState === WebSocket.OPEN`. -/
def wsOpen (s : Reconnect) : Bool := s.sockets.getLast? = some .opened

def enableManualRetry (s : Reconnect) : Reconnect :=
  { s with bootRetry := true, manualRetry := true }

def scheduleReconnect (s : Reconnect) : Reconnect :=
  let s := { s with reconnectAttempts := s.reconnectAttempts + 1 }
  if s.reconnectAttempts ≤ maxAutoReconnect then { s with timers := s.timers + 1 }
  else s.enableManualRetry

def connectWebSocket (s : Reconnect) (constructs : Bool) : Reconnect :=
  if constructs then { s with sockets := s.sockets ++ [.connecting] } else s.scheduleReconnect

/-- The handler that `enableManualRetry` installs. -/
def retry (s : Reconnect) (constructs : Bool) : Reconnect :=
  if s.wsOpen then s
  else { s with reconnectAttempts := 0, bootRetry := false }.connectWebSocket constructs

/-- Whether a frame that is broadcast now is written for this socket. -/
def receives (early : Bool) : Link → Bool
  | .connecting => early
  | .opened => true
  | .closing | .closed => false

def step (s : Reconnect) : ReconnectStep → Option Reconnect
  | .boot constructs =>
    if s.booted then none else some ({ s with booted := true }.connectWebSocket constructs)
  | .timer constructs =>
    if 0 < s.timers then some ({ s with timers := s.timers - 1 }.connectWebSocket constructs)
    else none
  | .tapBoot constructs =>
    if s.bootRetry ∧ ¬s.bootHidden then some (s.retry constructs) else none
  | .tapContainer constructs =>
    if s.userScrolledUp then some { s with userScrolledUp := false }
    else if s.manualRetry ∧ ¬s.wsOpen then some (s.retry constructs)
    else some s
  | .opened i =>
    if s.sockets[i]? = some .connecting then some { s with
      sockets := s.sockets.set i .opened
      reconnectAttempts := 0
      everConnected := true
      bootRetry := false }
    else none
  | .error i => if i < s.sockets.length then some s else none
  | .closing i =>
    if s.sockets[i]? = some .opened then some { s with sockets := s.sockets.set i .closing }
    else none
  | .closed i =>
    match s.sockets[i]? with
    | none | some .closed => none
    | some _ => some { s with sockets := s.sockets.set i .closed }.scheduleReconnect
  | .hideBoot => if s.everConnected then some { s with bootHidden := true } else none
  | .scrolled up => some { s with userScrolledUp := up }
  | .broadcast early => some { s with copies := s.copies ++ [s.sockets.countP (receives early)] }

/-- No socket is left that is not closed, and no timer is set. -/
def Idle (s : Reconnect) : Prop := (∀ socket ∈ s.sockets, socket = .closed) ∧ s.timers = 0

/-- A tap that calls `connectWebSocket` finds the page idle. -/
def Careful (s : Reconnect) : ReconnectStep → Prop
  | .tapBoot _ => s.wsOpen ∨ s.Idle
  | .tapContainer _ => s.userScrolledUp ∨ ¬s.manualRetry ∨ s.wsOpen ∨ s.Idle
  | _ => True

instance (s : Reconnect) : Decidable s.Idle := inferInstanceAs (Decidable (_ ∧ _))

instance (s : Reconnect) (a : ReconnectStep) : Decidable (Careful s a) :=
  match a with
  | .tapBoot _ => inferInstanceAs (Decidable (_ ∨ _))
  | .tapContainer _ => inferInstanceAs (Decidable (_ ∨ _))
  | .boot _ | .timer _ | .opened _ | .error _ | .closing _ | .closed _ | .hideBoot | .scrolled _
  | .broadcast _ => instDecidableTrue

/-! ## What is promised -/

/-- At most one connection and one timer; and so a broadcast is written
once if the page is connected at all. -/
structure Single (s : Reconnect) : Prop where
  live : s.sockets.countP Link.isLive ≤ 1
  timer : s.timers ≤ 1
  once : ∀ n ∈ s.copies, n ≤ 1

/-! ## The invariant -/

/-- The sockets that are not closed. -/
def unclosed (s : Reconnect) : ℕ := s.sockets.countP Link.isUnclosed

/-- How often the page is going to connect, or is connected: each socket
that is not closed will set a timer. -/
def ahead (s : Reconnect) : ℕ := s.unclosed + s.timers

structure Lone (s : Reconnect) : Prop where
  ahead : s.ahead ≤ 1
  once : ∀ n ∈ s.copies, n ≤ 1
  /-- Nothing happens before the page boots. -/
  before : s.booted = false → s.ahead = 0 ∧ s.bootRetry = false ∧ s.manualRetry = false

variable {s s' : Reconnect}

theorem lone_start : Lone start :=
  ⟨Nat.zero_le _, fun _ h => (List.not_mem_nil h).elim, fun _ => ⟨rfl, rfl, rfl⟩⟩

theorem unclosed_eq_zero : s.unclosed = 0 ↔ ∀ socket ∈ s.sockets, socket = .closed := by
  rw [unclosed, List.countP_eq_zero]
  refine forall₂_congr fun socket _ => ?_
  cases socket <;> simp [Link.isUnclosed]

theorem idle_iff : s.Idle ↔ s.ahead = 0 := by
  rw [ahead, Nat.add_eq_zero_iff, unclosed_eq_zero]
  rfl

theorem live_le : s.sockets.countP Link.isLive ≤ s.unclosed :=
  List.countP_mono_left fun socket _ hlive => by
    cases socket with
    | connecting | opened | closing => rfl
    | closed => cases hlive

theorem received_le (early : Bool) : s.sockets.countP (receives early) ≤ s.unclosed :=
  List.countP_mono_left fun socket _ hreceives => by
    cases socket with
    | connecting | opened | closing => rfl
    | closed => cases hreceives

theorem Lone.single (h : Lone s) : Single s where
  live := live_le.trans ((Nat.le_add_right ..).trans h.ahead)
  timer := (Nat.le_add_left ..).trans h.ahead
  once := h.once

/-! ## Connecting -/

/-- What connecting, or setting the timer for it, leaves alone. -/
structure Next (s s' : Reconnect) : Prop where
  ahead : s'.ahead ≤ s.ahead + 1
  copies : s'.copies = s.copies
  booted : s'.booted = s.booted

theorem next_schedule (s : Reconnect) : Next s s.scheduleReconnect := by
  rw [scheduleReconnect]
  dsimp only
  split
  · exact ⟨Nat.le_refl _, rfl, rfl⟩
  · exact ⟨Nat.le_succ _, rfl, rfl⟩

theorem ahead_connecting (s : Reconnect) :
    ahead { s with sockets := s.sockets ++ [.connecting] } = s.ahead + 1 := by
  rw [ahead, unclosed, List.countP_append, ahead, unclosed]
  exact Nat.add_right_comm ..

theorem next_connect (s : Reconnect) (constructs : Bool) :
    Next s (s.connectWebSocket constructs) := by
  rw [connectWebSocket]
  split
  · exact ⟨(ahead_connecting s).le, rfl, rfl⟩
  · exact next_schedule s

/-- A tap that retries adds a connection or a timer. -/
theorem ahead_retry (hopen : s.wsOpen = false) (constructs : Bool) :
    (s.retry constructs).ahead = s.ahead + 1 ∧ Next s (s.retry constructs) := by
  have hnext := next_connect { s with reconnectAttempts := 0, bootRetry := false } constructs
  rw [retry, if_neg (Bool.eq_false_iff.mp hopen)]
  refine ⟨?_, hnext.ahead, hnext.copies, hnext.booted⟩
  cases constructs with
  | true => exact ahead_connecting { s with reconnectAttempts := 0, bootRetry := false }
  | false => rfl

/-- Changing the state of a socket that is not closed. -/
theorem unclosed_set {i : ℕ} {old : Link} (hold : s.sockets[i]? = some old)
    (hunclosed : old.isUnclosed = true) (new : Link) :
    unclosed { s with sockets := s.sockets.set i new } + (if new.isUnclosed then 0 else 1)
      = s.unclosed := by
  obtain ⟨hlt, rfl⟩ := List.getElem?_eq_some_iff.mp hold
  have hpos := List.boole_getElem_le_countP (p := Link.isUnclosed) hlt
  rw [if_pos hunclosed] at hpos
  rw [unclosed, unclosed, List.countP_set hlt, if_pos hunclosed]
  cases new.isUnclosed with
  | true => exact Nat.sub_add_cancel hpos
  | false => exact Nat.sub_add_cancel hpos

theorem ahead_pos {i : ℕ} {socket : Link} (hi : s.sockets[i]? = some socket)
    (hsocket : socket.isUnclosed = true) : 0 < s.ahead :=
  Nat.add_pos_left (List.countP_pos_iff.mpr ⟨socket, List.mem_of_getElem? hi, hsocket⟩) _

/-! ## Every step -/

/-- The page is booted if anything is ahead, or a retry is installed. -/
theorem Lone.booted (h : Lone s)
    (hbusy : 0 < s.ahead ∨ s.bootRetry = true ∨ s.manualRetry = true) : s.booted = true := by
  cases hbooted : s.booted with
  | true => rfl
  | false =>
      obtain ⟨hzero, hboot, hmanual⟩ := h.before hbooted
      rw [hzero, hboot, hmanual] at hbusy
      simp at hbusy

/-- Connecting on an idle page. -/
theorem lone_next (hzero : s.ahead = 0) (honce : ∀ n ∈ s.copies, n ≤ 1)
    (hbooted : s.booted = true) (hnext : Next s s') : Lone s' where
  ahead := by
    have hahead := hnext.ahead
    rw [hzero] at hahead
    exact hahead
  once := by
    rw [hnext.copies]
    exact honce
  before hnot := by
    rw [hnext.booted, hbooted] at hnot
    cases hnot

theorem lone_timer (h : Lone s) (htimer : 0 < s.timers) (constructs : Bool) :
    Lone ({ s with timers := s.timers - 1 }.connectWebSocket constructs) := by
  have hzero : ahead { s with timers := s.timers - 1 } = 0 := by
    have hone : s.unclosed + s.timers ≤ 1 := h.ahead
    show s.unclosed + (s.timers - 1) = 0
    omega
  exact lone_next hzero h.once (h.booted (Or.inl (Nat.add_pos_right _ htimer)))
    (next_connect _ constructs)

theorem lone_retry (h : Lone s) (hretry : s.bootRetry = true ∨ s.manualRetry = true)
    (hok : s.wsOpen = true ∨ s.Idle) (constructs : Bool) : Lone (s.retry constructs) := by
  cases hopen : s.wsOpen with
  | true =>
      rw [retry, if_pos hopen]
      exact h
  | false =>
      have hidle := hok.resolve_left (Bool.eq_false_iff.mp hopen)
      exact lone_next (idle_iff.mp hidle) h.once (h.booted (Or.inr hretry))
        (ahead_retry hopen constructs).2

/-- A socket that closes makes room for the timer it sets. -/
theorem lone_closed (h : Lone s) {i : ℕ} {old : Link} (hold : s.sockets[i]? = some old)
    (hunclosed : old.isUnclosed = true) :
    Lone (scheduleReconnect { s with sockets := s.sockets.set i .closed }) := by
  have hcount := unclosed_set hold hunclosed .closed
  have hzero : ahead { s with sockets := s.sockets.set i .closed } = 0 := by
    have hone : s.unclosed + s.timers ≤ 1 := h.ahead
    rw [Link.isUnclosed, if_neg Bool.false_ne_true] at hcount
    rw [ahead]
    dsimp only
    omega
  exact lone_next hzero h.once (h.booted (Or.inl (ahead_pos hold hunclosed))) (next_schedule _)

/-- A socket that opens, or begins to close. -/
theorem lone_set (h : Lone s) {i : ℕ} {old new : Link} (hold : s.sockets[i]? = some old)
    (hunclosed : old.isUnclosed = true) (hnew : new.isUnclosed = true)
    (hsockets : s'.sockets = s.sockets.set i new) (htimers : s'.timers = s.timers)
    (hcopies : s'.copies = s.copies) (hbooted : s'.booted = s.booted) : Lone s' where
  ahead := by
    have hcount := unclosed_set hold hunclosed new
    rw [if_pos hnew, Nat.add_zero, unclosed, ← hsockets] at hcount
    rw [ahead, unclosed, hcount, htimers]
    exact h.ahead
  once := by
    rw [hcopies]
    exact h.once
  before hnot := by
    rw [hbooted, h.booted (Or.inl (ahead_pos hold hunclosed))] at hnot
    cases hnot

theorem lone_broadcast (h : Lone s) (early : Bool) :
    Lone { s with copies := s.copies ++ [s.sockets.countP (receives early)] } where
  ahead := h.ahead
  once n hn := by
    rcases List.mem_append.mp hn with hn | hn
    · exact h.once n hn
    · rw [List.mem_singleton.mp hn]
      exact (received_le early).trans ((Nat.le_add_right ..).trans h.ahead)
  before := h.before

theorem lone_step (a : ReconnectStep) (h : Lone s) (hok : Careful s a)
    (hs : step s a = some s') : Lone s' := by
  cases a with
  | boot constructs =>
      rw [step] at hs
      split at hs
      · cases hs
      · rename_i hbooted
        obtain rfl := Option.some.inj hs
        obtain ⟨hzero, -, -⟩ := h.before (Bool.eq_false_iff.mpr hbooted)
        exact lone_next (s := { s with booted := true }) hzero h.once rfl (next_connect _ constructs)
  | timer constructs =>
      rw [step] at hs
      split at hs
      · rename_i htimer
        obtain rfl := Option.some.inj hs
        exact lone_timer h htimer constructs
      · cases hs
  | tapBoot constructs =>
      rw [step] at hs
      split at hs
      · rename_i hretry
        obtain rfl := Option.some.inj hs
        exact lone_retry h (Or.inl hretry.1) hok constructs
      · cases hs
  | tapContainer constructs =>
      rw [step] at hs
      split at hs
      · obtain rfl := Option.some.inj hs
        exact ⟨h.ahead, h.once, h.before⟩
      · rename_i hdown
        split at hs
        · rename_i hretry
          obtain rfl := Option.some.inj hs
          have hok := (hok.resolve_left hdown).resolve_left (not_not.mpr hretry.1)
          exact lone_retry h (Or.inr hretry.1) hok constructs
        · obtain rfl := Option.some.inj hs
          exact h
  | opened i =>
      rw [step] at hs
      split at hs
      · rename_i hi
        obtain rfl := Option.some.inj hs
        exact lone_set h hi rfl rfl rfl rfl rfl rfl
      · cases hs
  | error i =>
      rw [step] at hs
      split at hs
      · obtain rfl := Option.some.inj hs
        exact h
      · cases hs
  | closing i =>
      rw [step] at hs
      split at hs
      · rename_i hi
        obtain rfl := Option.some.inj hs
        exact lone_set h hi rfl rfl rfl rfl rfl rfl
      · cases hs
  | closed i =>
      rw [step] at hs
      split at hs
      · cases hs
      · cases hs
      · rename_i old hclosed hi
        obtain rfl := Option.some.inj hs
        have hunclosed : old.isUnclosed = true := by
          cases old with
          | connecting | opened | closing => rfl
          | closed => exact absurd rfl hclosed
        exact lone_closed h hi hunclosed
  | hideBoot =>
      rw [step] at hs
      split at hs
      · obtain rfl := Option.some.inj hs
        exact ⟨h.ahead, h.once, h.before⟩
      · cases hs
  | scrolled up =>
      obtain rfl := Option.some.inj hs
      exact ⟨h.ahead, h.once, h.before⟩
  | broadcast early =>
      obtain rfl := Option.some.inj hs
      exact lone_broadcast h early

/-- A tap that is not careful adds to what is ahead already. -/
theorem careful_of_ahead {a : ReconnectStep} (hs : step s a = some s') (hahead : s'.ahead ≤ 1) :
    Careful s a := by
  have hidle : ∀ constructs, s.wsOpen = false → (s.retry constructs).ahead ≤ 1 → s.Idle := by
    intro constructs hopen hone
    rw [(ahead_retry hopen constructs).1] at hone
    exact idle_iff.mpr (Nat.le_zero.mp (Nat.le_of_succ_le_succ hone))
  cases a with
  | tapBoot constructs =>
      cases hopen : s.wsOpen with
      | true => exact Or.inl hopen
      | false =>
          rw [step] at hs
          split at hs
          · obtain rfl := Option.some.inj hs
            exact Or.inr (hidle constructs hopen hahead)
          · cases hs
  | tapContainer constructs =>
      rw [step] at hs
      split at hs
      · rename_i hup
        exact Or.inl hup
      · split at hs
        · rename_i hretry
          obtain rfl := Option.some.inj hs
          have hopen := Bool.eq_false_iff.mpr hretry.2
          exact Or.inr (Or.inr (Or.inr (hidle constructs hopen hahead)))
        · rename_i hno
          rcases not_and_or.mp hno with hmanual | hopen
          · exact Or.inr (Or.inl hmanual)
          · exact Or.inr (Or.inr (Or.inl (not_not.mp hopen)))
  | boot _ | timer _ | opened _ | error _ | closing _ | closed _ | hideBoot | scrolled _
  | broadcast _ => trivial

/-! ## Every run -/

/-- **One connection**, in every run in which the taps that retry find the
page idle; and any other tap leaves more ahead than one. -/
theorem one_connection (h : Reach step Careful start s) :
    Single s ∧ ∀ a s', step s a = some s' → (s'.ahead ≤ 1 ↔ Careful s a) := by
  have hlone := h.invariant Lone lone_start fun _ a _ hs hok hnext => lone_step a hs hok hnext
  refine ⟨hlone.single, fun a s' hs => ⟨careful_of_ahead hs, fun hok => ?_⟩⟩
  exact (lone_step a hlone hok hs).ahead

/-! ## A tap while a socket is connecting -/

/-- The boot screen has gone when the connection is lost; every automatic
attempt fails, and the tap that the page asks for starts another one. -/
def untilTap : List ReconnectStep :=
  [.boot true, .opened 0, .hideBoot, .closed 0]
    ++ (List.range 10).flatMap (fun i => [.timer true, .closed (i + 1)]) ++ [.tapContainer true]

/-- After the tap, a second one; then both sockets open, and a broadcast
is written twice. And a tap after a reconnection has begun again: the
timer is set, and two timers will be. -/
theorem second_tap_connects_twice :
    (∃ s, Reach step Free start s ∧ s.bootHidden = true ∧ s.sockets.countP Link.isLive = 2
      ∧ s.copies = [2] ∧ ¬Single s) ∧
    ∃ s, Reach step Free start s ∧ s.bootHidden = true ∧ s.timers = 2 ∧ ¬Single s := by
  constructor
  · obtain ⟨s, hs, hend⟩ := reach_of_replay
      (p := fun s : Reconnect =>
        decide (s.bootHidden = true ∧ s.sockets.countP Link.isLive = 2 ∧ s.copies = [2]))
      (show (replay step Free start (untilTap ++ [.tapContainer true, .opened 11, .opened 12,
        .broadcast false])).map _ = some true by decide)
    obtain ⟨hhidden, hlive, hcopies⟩ := of_decide_eq_true hend
    refine ⟨s, hs, hhidden, hlive, hcopies, fun h => ?_⟩
    have hone := h.live
    omega
  · obtain ⟨s, hs, hend⟩ := reach_of_replay
      (p := fun s : Reconnect => decide (s.bootHidden = true ∧ s.timers = 2))
      (show (replay step Free start (untilTap ++ [.opened 11, .closed 11, .tapContainer true,
        .closed 12])).map _ = some true by decide)
    obtain ⟨hhidden, htimers⟩ := of_decide_eq_true hend
    refine ⟨s, hs, hhidden, htimers, fun h => ?_⟩
    have hone := h.timer
    omega

/-- The tap the page asks for, after the automatic attempts. -/
theorem tap_connects_once : ∃ s, Single s ∧ s.sockets.countP Link.isLive = 1 ∧ s.copies = [1] := by
  obtain ⟨s, hs, hend⟩ := reach_of_replay
    (p := fun s : Reconnect => decide (s.sockets.countP Link.isLive = 1 ∧ s.copies = [1]))
    (show (replay step Careful start (untilTap ++ [.opened 11, .broadcast true])).map _
      = some true by decide)
  exact ⟨s, (one_connection hs).1, of_decide_eq_true hend⟩

end Reconnect

end Zmux
