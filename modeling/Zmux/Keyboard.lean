import Mathlib.Data.List.Basic
import Zmux.Console

/-!
# The keys of the host console

`_handle_char` of `pty_session.py` with the escape parser and the history
behind it: what every typed character does to the pending line. Lines go
to `Console.submitLine`; what that prints is left out here as it is there,
and a prompt is one item of the output, whatever it reads.

The parser comes before the dispatch of the control characters, so a
Ctrl+C inside of an escape sequence is taken for a part of it. Which
characters leave the parser inside of a sequence is `ground_iff`, and when
Ctrl+C does its work is `interrupt_iff`.
-/

namespace Zmux

/-! ## The escape parser -/

/-- `_esc_state`; the empty string is `ground`. -/
inductive EscState where
  | ground
  | esc
  | csi
  | ss3
deriving DecidableEq

def escape : Char := '\x1b'

def ctrlC : Char := '\x03'

/-- `_CSI_FINAL_BYTES`. -/
def isFinal (c : Char) : Bool := '@' ≤ c && c ≤ '~'

/-- The parser alone. -/
def EscState.next : EscState → Char → EscState
  | .ground, c => if c = escape then .esc else .ground
  | .esc, c => if c = '[' then .csi else if c = 'O' then .ss3 else .ground
  | .ss3, _ => .ground
  | .csi, c => if isFinal c then .ground else .csi

/-- Whole keys: plain characters, and escape sequences up to their end. -/
inductive Settled : List Char → Prop where
  | nil : Settled []
  | plain {c : Char} {cs : List Char} : c ≠ escape → Settled cs → Settled (c :: cs)
  | alt {c : Char} {cs : List Char} : c ≠ '[' → c ≠ 'O' → Settled cs →
      Settled (escape :: c :: cs)
  | ss3 {c : Char} {cs : List Char} : Settled cs → Settled (escape :: 'O' :: c :: cs)
  | csi {params : List Char} {c : Char} {cs : List Char} : (∀ p ∈ params, isFinal p = false) →
      isFinal c = true → Settled cs → Settled (escape :: '[' :: (params ++ c :: cs))

theorem next_params {params : List Char} (h : ∀ p ∈ params, isFinal p = false) :
    params.foldl EscState.next .csi = .csi := by
  induction params with
  | nil => rfl
  | cons p ps ih =>
      have hp : EscState.next .csi p = .csi := by
        simp [EscState.next, h p (List.mem_cons_self ..)]
      rw [List.foldl_cons, hp]
      exact ih fun q hq => h q (List.mem_cons_of_mem _ hq)

/-- A sequence that is over has a final character. -/
theorem csi_split {cs : List Char} (h : cs.foldl EscState.next .csi = .ground) :
    ∃ params c rest, cs = params ++ c :: rest ∧ (∀ p ∈ params, isFinal p = false) ∧
      isFinal c = true ∧ rest.foldl EscState.next .ground = .ground := by
  induction cs with
  | nil => cases h
  | cons c cs ih =>
      rw [List.foldl_cons] at h
      cases hc : isFinal c with
      | true =>
          simp only [EscState.next, hc, if_true] at h
          exact ⟨[], c, cs, rfl, nofun, hc, h⟩
      | false =>
          simp only [EscState.next, hc, Bool.false_eq_true, if_false] at h
          obtain ⟨params, d, rest, rfl, hparams, hd, hrest⟩ := ih h
          refine ⟨c :: params, d, rest, rfl, fun p hp => ?_, hd, hrest⟩
          rcases List.mem_cons.mp hp with rfl | hp
          · exact hc
          · exact hparams p hp

theorem settled_of_ground (cs : List Char) (h : cs.foldl EscState.next .ground = .ground) :
    Settled cs := by
  induction hlength : cs.length using Nat.strongRecOn generalizing cs with
  | ind n ih =>
    have hshorter (rest : List Char) (hlt : rest.length < cs.length)
        (hrest : rest.foldl EscState.next .ground = .ground) : Settled rest :=
      ih rest.length (hlength ▸ hlt) rest hrest rfl
    match cs with
    | [] => exact .nil
    | c :: rest =>
        by_cases hc : c = escape
        · subst hc
          match rest with
          | [] => cases h
          | d :: rest =>
              by_cases hcsi : d = '['
              · subst hcsi
                obtain ⟨params, e, rest, rfl, hparams, he, hrest⟩ := csi_split h
                refine .csi hparams he (hshorter rest ?_ hrest)
                simp only [List.length_cons, List.length_append]
                omega
              · by_cases hss3 : d = 'O'
                · subst hss3
                  match rest with
                  | [] => cases h
                  | e :: rest =>
                      refine .ss3 (hshorter rest ?_ h)
                      simp only [List.length_cons]
                      omega
                · refine .alt hcsi hss3 (hshorter rest ?_ ?_)
                  · simp only [List.length_cons]
                    omega
                  · simpa [EscState.next, hcsi, hss3] using h
        · refine .plain hc (hshorter rest (by simp) ?_)
          simpa [EscState.next, hc] using h

/-- The parser is outside of every sequence after whole keys, and only
then. -/
theorem ground_iff (cs : List Char) : cs.foldl EscState.next .ground = .ground ↔ Settled cs := by
  refine ⟨settled_of_ground cs, fun h => ?_⟩
  induction h with
  | nil => rfl
  | plain hc _ ih => simpa [EscState.next, hc] using ih
  | alt hcsi hss3 _ ih => simpa [EscState.next, hcsi, hss3] using ih
  | ss3 _ ih => simpa [EscState.next] using ih
  | csi hparams hfinal _ ih =>
      simpa [EscState.next, next_params hparams, hfinal] using ih

/-! ## The keys -/

/-- What the input thread shows. -/
inductive Shown where
  | text (s : List Char)
  | prompt
deriving DecidableEq

/-- `processes` is `has_running_processes` of the shell; `interrupts` and
`injected` count the calls of `interrupt` and of
`_inject_keyboard_interrupt`. -/
structure Keyboard where
  console : Console
  escState : EscState
  lineBuffer : Line
  historyIndex : Option ℕ
  historyStash : Line
  processes : Bool
  shown : List Shown
  interrupts : ℕ
  injected : ℕ

namespace Keyboard

def start (awaitingAlpine : Bool) : Keyboard where
  console := Console.start awaitingAlpine
  escState := .ground
  lineBuffer := []
  historyIndex := none
  historyStash := []
  processes := false
  shown := []
  interrupts := 0
  injected := 0

def emit (s : Keyboard) (text : List Char) : Keyboard := { s with shown := s.shown ++ [.text text] }

def emitPrompt (s : Keyboard) : Keyboard := { s with shown := s.shown ++ [.prompt] }

/-- `_replace_line`. -/
def replaceLine (s : Keyboard) (text : Line) : Keyboard :=
  { s with lineBuffer := text }.emit ("\r\x1b[K".toList ++ text)

/-- `_history_step`; the direction is `-1` or `+1`. -/
def historyStep (s : Keyboard) (direction : Int) : Keyboard :=
  let history := s.console.history
  if s.console.busy = true ∨ history = [] then s
  else if s.historyIndex = none ∧ 0 < direction then s
  else
    let stash := if s.historyIndex = none then s.lineBuffer else s.historyStash
    let newIndex := (s.historyIndex.getD history.length : Int) + direction
    if (history.length : Int) ≤ newIndex then
      { s with historyStash := stash, historyIndex := none }.replaceLine stash
    else
      let index := (max 0 newIndex).toNat
      { s with historyStash := stash, historyIndex := some index }.replaceLine
        (history.getD index [])

/-- The arrows of a finished sequence. -/
def arrow (s : Keyboard) (char : Char) : Keyboard :=
  if char = 'A' then s.historyStep (-1)
  else if char = 'B' then s.historyStep 1
  else s

/-- `_handle_escape_char`. -/
def handleEscapeChar (s : Keyboard) (char : Char) : Keyboard :=
  if s.escState = .ground ∧ char = escape then { s with escState := .esc }
  else match s.escState with
  | .esc =>
    { s with escState := if char = '[' then .csi else if char = 'O' then .ss3 else .ground }
  | .ss3 => { s.arrow char with escState := .ground }
  -- swallow until a final byte arrives
  | .csi | .ground =>
    if isFinal char then { s.arrow char with escState := .ground } else s

/-- `_interrupt_running`. -/
def interruptRunning (s : Keyboard) : Keyboard :=
  let s := { s with lineBuffer := [], console := { s.console with pythonLines := [] } }
  let s := s.emit "^C\r\n".toList
  if s.console.busy then
    { s with
      interrupts := s.interrupts + 1
      injected := if s.processes then s.injected else s.injected + 1 }
  else s.emitPrompt

/-- `_leave_repl`. -/
def leaveRepl (s : Keyboard) : Keyboard :=
  { s with console := { s.console with mode := .shell, pythonLines := [] } }.emitPrompt

/-- `_submit_line`; `_history_record` leaves the walk through the history. -/
def submitLine (host : Host) (s : Keyboard) : Keyboard :=
  { s with
    console := s.console.submitLine host s.lineBuffer
    historyIndex :=
      if s.console.busy = true ∨ strip s.lineBuffer = [] then s.historyIndex else none }

/-- `_handle_char`. -/
def handleChar (host : Host) (s : Keyboard) (char : Char) : Keyboard :=
  -- the parser first: arrow keys arrive as ESC [ A/B
  if s.escState ≠ .ground ∨ char = escape then s.handleEscapeChar char
  else if char = ctrlC then s.interruptRunning
  else if char = '\x04' then
    if s.console.mode = .repl ∧ s.lineBuffer = [] ∧ s.console.busy = false then s.leaveRepl else s
  else if char = '\x7f' ∨ char = '\x08' then
    if s.lineBuffer ≠ [] then
      { s with lineBuffer := s.lineBuffer.dropLast }.emit "\x08 \x08".toList
    else s
  else if char = '\r' ∨ char = '\n' then
    { (s.emit "\r\n".toList).submitLine host with lineBuffer := [] }
  else if ' ' ≤ char then { s with lineBuffer := s.lineBuffer ++ [char] }.emit [char]
  else s

variable {host : Host} {s : Keyboard}

/-! ## What the keys leave alone -/

theorem interruptRunning_escState (s : Keyboard) : s.interruptRunning.escState = s.escState := by
  unfold interruptRunning
  dsimp only
  split <;> rfl

/-- A character of a sequence moves the parser, and in the last two states
it may be an arrow. -/
theorem handleEscapeChar_eq {char : Char} (h : s.escState ≠ .ground ∨ char = escape) :
    s.handleEscapeChar char
      = { (match s.escState with
          | .ground | .esc => s
          | .ss3 | .csi => s.arrow char) with escState := s.escState.next char } := by
  unfold handleEscapeChar
  cases hstate : s.escState with
  | ground =>
      have hchar := h.resolve_left fun hne => hne hstate
      simp [hchar, EscState.next]
  | esc => simp [EscState.next]
  | ss3 => simp [EscState.next]
  | csi =>
      cases hfinal : isFinal char with
      | true => simp [EscState.next, hfinal]
      | false =>
          -- the arrows are final bytes
          have harrow : s.arrow char = s := by
            unfold arrow
            rw [if_neg, if_neg] <;>
              · rintro rfl
                revert hfinal
                decide
          have hsame : { s with escState := .csi } = s := by rw [← hstate]
          simp [EscState.next, hfinal, harrow, hsame]

theorem handleEscapeChar_escState {char : Char}
    (h : s.escState ≠ .ground ∨ char = escape) :
    (s.handleEscapeChar char).escState = s.escState.next char := by
  rw [handleEscapeChar_eq h]

/-- Of all that the keys do, only the parser looks at its state. -/
theorem handleChar_escState (host : Host) (s : Keyboard) (char : Char) :
    (s.handleChar host char).escState = s.escState.next char := by
  unfold handleChar
  split
  · rename_i hsequence
    exact handleEscapeChar_escState hsequence
  · rename_i hplain
    obtain ⟨hground, hchar⟩ := not_or.mp hplain
    have hsame : s.escState = s.escState.next char := by
      rw [not_not.mp hground]
      simp [EscState.next, hchar]
    split
    · exact (interruptRunning_escState s).trans hsame
    · split
      · split
        · exact hsame
        · exact hsame
      · split
        · split
          · exact hsame
          · exact hsame
        · split
          · exact hsame
          · split
            · exact hsame
            · exact hsame

/-! ## Ctrl+C -/

/-- A typed character, or anything that the other threads of the session
do; none of them touches the parser. -/
inductive KeyStep where
  | key (char : Char)
  | others (s : Keyboard)

def step (host : Host) (s : Keyboard) : KeyStep → Keyboard
  | .key char => s.handleChar host char
  | .others s' => { s' with escState := s.escState }

/-- The characters typed in a run. -/
def typed (steps : List KeyStep) : List Char :=
  steps.filterMap fun
    | .key char => some char
    | .others _ => none

/-- The state of the parser is a function of what was typed. -/
theorem escState_run (host : Host) (steps : List KeyStep) (s : Keyboard) :
    (steps.foldl (step host) s).escState = (typed steps).foldl EscState.next s.escState := by
  induction steps generalizing s with
  | nil => rfl
  | cons a steps ih =>
      rw [List.foldl_cons, ih]
      cases a with
      | key char =>
          simp only [step, handleChar_escState]
          rfl
      | others s' => rfl

/-- Ctrl+C is not swallowed: the pending line is cleared, and a command
that runs is interrupted. -/
structure Interrupted (s s' : Keyboard) : Prop where
  called : s' = s.interruptRunning
  cleared : s'.lineBuffer = []
  interrupted : s.console.busy = true → s'.interrupts = s.interrupts + 1

theorem interrupted_interruptRunning (s : Keyboard) : Interrupted s s.interruptRunning where
  called := rfl
  cleared := by
    unfold interruptRunning
    dsimp only
    split <;> rfl
  interrupted hbusy := by
    unfold interruptRunning
    exact congrArg interrupts (if_pos hbusy)

theorem interruptRunning_shown (s : Keyboard) :
    s.shown.length < s.interruptRunning.shown.length := by
  unfold interruptRunning
  dsimp only
  split
  · simp [emit]
  · simp only [emitPrompt, emit, List.length_append, List.length_singleton]
    omega

/-- Inside of a sequence Ctrl+C moves the parser and does nothing else. -/
theorem handleChar_swallowed (host : Host) (h : s.escState ≠ .ground) :
    s.handleChar host ctrlC = { s with escState := s.escState.next ctrlC } := by
  have harrow : s.arrow ctrlC = s := by
    unfold arrow
    rw [if_neg (by decide), if_neg (by decide)]
  unfold handleChar
  rw [if_pos (Or.inl h)]
  unfold handleEscapeChar
  rw [if_neg fun hground => h hground.1]
  cases hstate : s.escState with
  | ground => exact absurd hstate h
  | esc => rfl
  | ss3 =>
      dsimp only
      rw [harrow]
      rfl
  | csi =>
      dsimp only
      rw [if_neg (by decide), show EscState.csi.next ctrlC = s.escState from hstate.symm]

theorem handleChar_ctrlC_iff (host : Host) (s : Keyboard) :
    Interrupted s (s.handleChar host ctrlC) ↔ s.escState = .ground := by
  by_cases hground : s.escState = .ground
  · have hcalled : s.handleChar host ctrlC = s.interruptRunning := by
      unfold handleChar
      rw [if_neg, if_pos rfl]
      exact not_or.mpr ⟨not_not.mpr hground, by decide⟩
    rw [hcalled]
    exact iff_of_true (interrupted_interruptRunning s) hground
  · refine iff_of_false (fun h => ?_) hground
    have hcalled := h.called
    rw [handleChar_swallowed host hground] at hcalled
    have hlonger := interruptRunning_shown s
    rw [← hcalled] at hlonger
    exact Nat.lt_irrefl _ hlonger

/-- **The kill switch** works after whole keys, and only then. -/
theorem interrupt_iff (host : Host) (awaitingAlpine : Bool) (steps : List KeyStep) :
    Interrupted (steps.foldl (step host) (start awaitingAlpine))
        ((steps.foldl (step host) (start awaitingAlpine)).handleChar host ctrlC)
      ↔ Settled (typed steps) := by
  rw [handleChar_ctrlC_iff, escState_run]
  exact ground_iff (typed steps)

/-- The Escape key, then Ctrl+C while a command runs: the half-typed `x`
stays in the line, and nothing is interrupted. -/
theorem escape_swallows_interrupt : ∃ (host : Host) (s : Keyboard),
    s.console.busy = true ∧ s.lineBuffer = ['x']
      ∧ ((s.handleChar host escape).handleChar host ctrlC).lineBuffer = ['x']
      ∧ ((s.handleChar host escape).handleChar host ctrlC).interrupts = s.interrupts
      ∧ ¬ Interrupted (s.handleChar host escape)
          ((s.handleChar host escape).handleChar host ctrlC) := by
  refine ⟨⟨fun _ _ => false, fun _ => false, fun _ => false, fun _ => true, fun _ => false⟩,
    { start false with
      console := { Console.start false with busy := true }
      lineBuffer := ['x'] }, rfl, rfl, rfl, rfl, fun h => ?_⟩
  exact absurd h.cleared (by decide)

end Keyboard

end Zmux
