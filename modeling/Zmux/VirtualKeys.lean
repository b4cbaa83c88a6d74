import Mathlib.Algebra.Ring.Nat
import Mathlib.Data.Int.Order.Basic
import Mathlib.Data.List.Basic
import Zmux.Runs

/-!
# Keys of the page

What `terminal.html` sends for the keys of its toolbar and of the soft
keyboard: the CTRL latch (`setCtrlLatched`, `sendKeyInput`, the handler of
`term.onData`), `toControlCode`, and the keys that repeat while they are
held (`attachRepeating`).

A user's `Gesture` is what the handlers are for. What is sent for it is
its meaning, and the latch is off again (`run_gestures`). A held key has
one timer, and none once it is released (`one_timer`).
-/

namespace Zmux

namespace VirtualKeys

/-! ## The handlers -/

/-- `text.length` of JavaScript. -/
def utf16Length (text : List Char) : ℕ :=
  (text.map fun c => if c.toNat < 0x10000 then 1 else 2).sum

/-- `toControlCode`; `upperCode` is the first code unit of the upper case
of a character. -/
def toControlCode (upperCode : Char → ℕ) (text : List Char) : Option Char :=
  match text with
  | [c] =>
    if c.toNat < 0x10000 ∧ 64 ≤ upperCode c ∧ upperCode c < 128 then
      some (Char.ofNat (upperCode c % 32))
    else none
  | _ => none

inductive Message where
  | input (text : List Char)
  /-- The request of `fitTerminal`. -/
  | resize (cols rows : ℤ)

structure Keys where
  ctrlLatched : Bool
  /-- `ws.readyState === WebSocket.OPEN`. -/
  isOpen : Bool

inductive Event where
  | tapCtrl
  /-- The click of a key, or the start of a press that repeats. -/
  | key (text : List Char)
  /-- The interval of a key that is held. -/
  | interval (text : List Char)
  /-- `term.onData`. -/
  | typed (text : List Char)
  /-- `fitTerminal` finds another size. -/
  | fitted (cols rows : ℤ)
  | connection (isOpen : Bool)

variable (upperCode : Char → ℕ)

namespace Keys

variable (k : Keys)

def send (message : Message) : List Message := if k.isOpen then [message] else []

def sendRaw (text : List Char) : List Message := k.send (.input text)

def sendKeyInput (text : List Char) : Keys × List Message :=
  if k.ctrlLatched then
    match toControlCode upperCode text with
    | some control => ({ k with ctrlLatched := false }, k.sendRaw [control])
    | none => ({ k with ctrlLatched := false }, k.sendRaw text)
  else (k, k.sendRaw text)

def onData (text : List Char) : Keys × List Message :=
  if k.isOpen = false then (k, [])
  else if k.ctrlLatched ∧ utf16Length text = 1 then k.sendKeyInput upperCode text
  else (k, [.input text])

def step : Event → Keys × List Message
  | .tapCtrl => ({ k with ctrlLatched := !k.ctrlLatched }, [])
  | .key text => k.sendKeyInput upperCode text
  | .interval text => (k, k.sendRaw text)
  | .typed text => k.onData upperCode text
  | .fitted cols rows => (k, k.send (.resize cols rows))
  | .connection isOpen => ({ k with isOpen := isOpen }, [])

/-- The messages of a run. -/
def run : Keys → List Event → Keys × List Message
  | k, [] => (k, [])
  | k, event :: events =>
    let (k, first) := k.step upperCode event
    let (k, rest) := run k events
    (k, first ++ rest)

end Keys

/-! ## Gestures -/

/-- What a user does: press a key, after CTRL or not, and hold it for some
intervals, type on the soft keyboard, or turn the device. -/
inductive Gesture where
  | virtualKey (ctrl : Bool) (text : List Char) (intervals : ℕ)
  | softKey (ctrl : Bool) (text : List Char)
  | turn (cols rows : ℤ)

/-- CTRL goes with one code unit from the soft keyboard. -/
def Gesture.Typable : Gesture → Prop
  | .softKey true text => utf16Length text = 1
  | _ => True

def ctrlEvents (ctrl : Bool) : List Event := if ctrl then [.tapCtrl] else []

def Gesture.events : Gesture → List Event
  | .virtualKey ctrl text intervals =>
    ctrlEvents ctrl ++ .key text :: List.replicate intervals (.interval text)
  | .softKey ctrl text => ctrlEvents ctrl ++ [.typed text]
  | .turn cols rows => [.fitted cols rows]

/-- The control code of the key, if it has one. -/
def withCtrl (ctrl : Bool) (text : List Char) : List Char :=
  if ctrl then ((toControlCode upperCode text).map fun c => [c]).getD text else text

def Gesture.messages : Gesture → List Message
  | .virtualKey ctrl text intervals =>
    .input (withCtrl upperCode ctrl text) :: List.replicate intervals (.input text)
  | .softKey ctrl text => [.input (withCtrl upperCode ctrl text)]
  | .turn cols rows => [.resize cols rows]

/-- Connected, with the latch off. -/
def ready : Keys := ⟨false, true⟩

variable {upperCode}

theorem run_append (k : Keys) (events more : List Event) :
    k.run upperCode (events ++ more) = (((k.run upperCode events).1.run upperCode more).1,
      (k.run upperCode events).2 ++ ((k.run upperCode events).1.run upperCode more).2) := by
  induction events generalizing k with
  | nil => rfl
  | cons event events ih => simp only [List.cons_append, Keys.run, ih, List.append_assoc]

theorem run_intervals (text : List Char) (n : ℕ) :
    ready.run upperCode (List.replicate n (.interval text))
      = (ready, List.replicate n (.input text)) := by
  induction n with
  | zero => rfl
  | succ n ih =>
      rw [List.replicate_succ, Keys.run]
      simp only [Keys.step, ih]
      rfl

theorem sendKeyInput_latched (text : List Char) :
    (⟨true, true⟩ : Keys).sendKeyInput upperCode text
      = (ready, [.input (withCtrl upperCode true text)]) := by
  rw [Keys.sendKeyInput, if_pos rfl, withCtrl, if_pos rfl]
  cases toControlCode upperCode text <;> rfl

/-- CTRL, and then the key that it is for. -/
theorem run_latched {event : Event} {messages : List Message}
    (h : (⟨true, true⟩ : Keys).step upperCode event = (ready, messages)) :
    ready.run upperCode [.tapCtrl, event] = (ready, messages) := by
  have htap : ready.step upperCode .tapCtrl = (⟨true, true⟩, []) := rfl
  simp only [Keys.run, htap, h, List.nil_append, List.append_nil]

theorem run_key (ctrl : Bool) (text : List Char) :
    ready.run upperCode (ctrlEvents ctrl ++ [.key text])
      = (ready, [.input (withCtrl upperCode ctrl text)]) := by
  cases ctrl with
  | false => rfl
  | true => exact run_latched (sendKeyInput_latched text)

theorem run_gesture {g : Gesture} (h : g.Typable) :
    ready.run upperCode g.events = (ready, g.messages upperCode) := by
  cases g with
  | virtualKey ctrl text intervals =>
      rw [Gesture.events, List.append_cons, run_append, run_key, run_intervals]
      rfl
  | softKey ctrl text =>
      cases ctrl with
      | false => rfl
      | true =>
          have hone : utf16Length text = 1 := h
          have htyped : (⟨true, true⟩ : Keys).onData upperCode text
              = (ready, [.input (withCtrl upperCode true text)]) := by
            rw [Keys.onData, if_neg Bool.noConfusion, if_pos ⟨rfl, hone⟩, sendKeyInput_latched]
          exact run_latched htyped
  | turn cols rows => rfl

/-- What is sent for the gestures of a user is what they mean. -/
theorem run_gestures {gestures : List Gesture} (h : ∀ g ∈ gestures, g.Typable) :
    ready.run upperCode (gestures.flatMap Gesture.events)
      = (ready, gestures.flatMap (Gesture.messages upperCode)) := by
  induction gestures with
  | nil => rfl
  | cons g gestures ih =>
      obtain ⟨hg, hrest⟩ := List.forall_mem_cons.mp h
      rw [List.flatMap_cons, List.flatMap_cons, run_append, run_gesture hg, ih hrest]

/-! ## Keys that repeat

`clearTimeout` and `clearInterval` take away the timer with that number,
and the browser never gives a number twice. -/

/-- The variables of `attachRepeating` for one key, and the timers it has
set that the browser still has. -/
structure Repeater where
  initialTimer : Option ℕ
  intervalTimer : Option ℕ
  timeouts : List ℕ
  intervals : List ℕ
  nextId : ℕ
  /-- The last of press and release was a press. -/
  held : Bool
  sent : List Event

inductive RepeaterStep where
  | press (id : ℕ)
  | release
  | timeout (id new : ℕ)
  | interval (id : ℕ)

namespace Repeater

def start : Repeater := ⟨none, none, [], [], 0, false, []⟩

/-- `stop`. -/
def stop (r : Repeater) : Repeater :=
  { r with
    initialTimer := none
    intervalTimer := none
    timeouts := r.timeouts.filter fun id => some id ≠ r.initialTimer
    intervals := r.intervals.filter fun id => some id ≠ r.intervalTimer }

def step (text : List Char) (r : Repeater) : RepeaterStep → Option Repeater
  | .press id =>
    if r.nextId ≤ id then
      some
        { r.stop with
          initialTimer := some id
          timeouts := r.stop.timeouts ++ [id]
          nextId := id + 1
          held := true
          sent := r.sent ++ [.key text] }
    else none
  | .release => some { r.stop with held := false }
  | .timeout id new =>
    if id ∈ r.timeouts ∧ r.nextId ≤ new then
      some
        { r with
          timeouts := r.timeouts.erase id
          intervalTimer := some new
          intervals := r.intervals ++ [new]
          nextId := new + 1 }
    else none
  | .interval id =>
    if id ∈ r.intervals then some { r with sent := r.sent ++ [.interval text] } else none

/-- The timers are those of the variables, one at most, and none after a
release. -/
structure Tidy (text : List Char) (r : Repeater) : Prop where
  timeouts : ∀ id ∈ r.timeouts, r.initialTimer = some id
  intervals : ∀ id ∈ r.intervals, r.intervalTimer = some id
  one : r.timeouts.length + r.intervals.length ≤ 1
  released : r.held = false → r.timeouts = [] ∧ r.intervals = []
  sent : ∃ presses : List ℕ, r.sent = presses.flatMap fun n =>
    (Gesture.virtualKey false text n).events
  pressed : r.held = true → r.sent ≠ []

variable {text : List Char} {r r' : Repeater}

theorem Tidy.stop_none (h : Tidy text r) : r.stop.timeouts = [] ∧ r.stop.intervals = [] := by
  constructor
  · refine List.filter_eq_nil_iff.mpr fun id hid => ?_
    simp [h.timeouts id hid]
  · refine List.filter_eq_nil_iff.mpr fun id hid => ?_
    simp [h.intervals id hid]

/-- One interval more is one more of the last press. -/
theorem sent_interval {presses : List ℕ} (h : presses ≠ []) :
    ∃ presses' : List ℕ, (presses.flatMap fun n => (Gesture.virtualKey false text n).events)
      ++ [.interval text] = presses'.flatMap fun n => (Gesture.virtualKey false text n).events := by
  obtain ⟨front, n, rfl⟩ := (List.eq_nil_or_concat presses).resolve_left h
  refine ⟨front ++ [n + 1], ?_⟩
  simp [Gesture.events, ctrlEvents, List.replicate_succ']

theorem tidy_start : Tidy text start where
  timeouts := fun _ h => absurd h List.not_mem_nil
  intervals := fun _ h => absurd h List.not_mem_nil
  one := Nat.zero_le 1
  released _ := ⟨rfl, rfl⟩
  sent := ⟨[], rfl⟩
  pressed h := Bool.noConfusion h

theorem tidy_step {a : RepeaterStep} (h : Tidy text r) (hstep : step text r a = some r') :
    Tidy text r' := by
  obtain ⟨htimeouts, hintervals⟩ := h.stop_none
  cases a with
  | press id =>
      dsimp only [step] at hstep
      split at hstep
      · obtain rfl := Option.some.inj hstep
        obtain ⟨presses, hsent⟩ := h.sent
        refine ⟨?_, ?_, ?_, fun hheld => Bool.noConfusion hheld, ⟨presses ++ [0], ?_⟩, fun _ => ?_⟩
        · simp [htimeouts]
        · simp [hintervals]
        · simp [htimeouts, hintervals]
        · simp [hsent, Gesture.events, ctrlEvents]
        · simp
      · cases hstep
  | release =>
      obtain rfl := Option.some.inj hstep
      exact ⟨by simp [htimeouts], by simp [hintervals], by simp [htimeouts, hintervals],
        fun _ => ⟨htimeouts, hintervals⟩, h.sent, fun hheld => Bool.noConfusion hheld⟩
  | timeout id new =>
      dsimp only [step] at hstep
      split at hstep
      · rename_i hid
        obtain rfl := Option.some.inj hstep
        have hone := h.one
        have hlength := List.length_erase_of_mem hid.1
        have hpos := List.length_pos_of_mem hid.1
        have herase : r.timeouts.erase id = [] := List.length_eq_zero_iff.mp (by omega)
        have hnone : r.intervals = [] := List.length_eq_zero_iff.mp (by omega)
        refine ⟨?_, ?_, ?_, fun hheld => ?_, h.sent, h.pressed⟩
        · simp [herase]
        · simp [hnone]
        · simp [herase, hnone]
        · exact absurd hid.1 ((h.released hheld).1 ▸ List.not_mem_nil)
      · cases hstep
  | interval id =>
      dsimp only [step] at hstep
      split at hstep
      · rename_i hid
        obtain rfl := Option.some.inj hstep
        obtain ⟨presses, hsent⟩ := h.sent
        have hheld : r.held = true := by
          by_contra hreleased
          have hnone := (h.released (Bool.eq_false_iff.mpr hreleased)).2
          exact absurd hid (hnone ▸ List.not_mem_nil)
        have hpresses : presses ≠ [] := by
          rintro rfl
          exact h.pressed hheld hsent
        refine ⟨h.timeouts, h.intervals, h.one, h.released, ?_, fun _ => by simp⟩
        dsimp only
        rw [hsent]
        exact sent_interval hpresses
      · cases hstep

/-- However a key is pressed and released, it has one timer at most, none
when it is released, and what it sends is what some presses send. -/
theorem one_timer (h : Reach (step text) Free start r) :
    r.timeouts.length + r.intervals.length ≤ 1
      ∧ (r.held = false → r.timeouts = [] ∧ r.intervals = [])
      ∧ ∃ presses : List ℕ, r.sent = presses.flatMap fun n =>
        (Gesture.virtualKey false text n).events := by
  have htidy := h.invariant (Tidy text) tidy_start fun _ _ _ htidy _ hstep => tidy_step htidy hstep
  exact ⟨htidy.one, htidy.released, htidy.sent⟩

/-- A key that is held for two intervals, released, and tapped. -/
theorem one_timer_held : ∃ r : Repeater, r.sent.length = 4 ∧
    r.timeouts.length + r.intervals.length ≤ 1 ∧
    ∃ presses : List ℕ, r.sent = presses.flatMap fun n =>
      (Gesture.virtualKey false ['x'] n).events := by
  obtain ⟨r, hr, hend⟩ := reach_of_replay (p := fun r : Repeater => r.sent.length == 4)
    (show (replay (step ['x']) Free start
      [.press 1, .timeout 1 2, .interval 2, .interval 2, .release, .press 3]).map _ = some true
      by decide)
  obtain ⟨hone, -, hsent⟩ := one_timer hr
  exact ⟨r, beq_iff_eq.mp hend, hone, hsent⟩

end Repeater

end VirtualKeys

end Zmux
