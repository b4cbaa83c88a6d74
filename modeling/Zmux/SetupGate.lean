import Zmux.Keyboard
import Zmux.Runs

/-!
# The setup gate

A session that starts before Alpine is installed is a gate:
`_awaiting_alpine` is set, `_submit_line` queues nothing but `linux-setup`,
and when a command line returns and Alpine is there, the gate opens and
`_finish_command` starts the Alpine shell.

The session of `pty_session.py` is modelled with all that can bring a line
to the worker or keep it from there: `write_input` with its keys, the two
queues, Ctrl+C and the flag that it sets, commands that read their stdin,
the PTY, and `stop`. The input thread holds the lock of the session while
it handles the characters of one write, and `_enter_linux_pty` waits for
the lock. A `KeyboardInterrupt` is injected into the worker only while the
shell executes. What the session prints is left out.

A line that is typed while the `linux-setup` of the gate runs goes to the
stdin queue, `ahead` of its time. After a failed setup `_finish_command`
submits it again, and the gate turns it away. After a successful one
`_finish_command` returns by way of `_enter_linux_pty` and leaves it in the
queue, for the next command to read it or to submit it.
-/

namespace Zmux

/-- A typed line. `ahead` is a ghost: it was typed while a command ran that
was started at the gate. -/
structure TypedLine where
  text : Line
  ahead : Bool
deriving DecidableEq

/-- `atGate` is a ghost as well: the gate was closed when the worker
started the line. -/
structure StartedLine where
  line : TypedLine
  mode : Mode
  atGate : Bool
deriving DecidableEq

abbrev TypedCommand := TypedLine × Mode

/-- The names that `_shell_commands` adds to those of the shell. -/
def sessionCommands : List Line :=
  ["pip".toList, "zpip".toList, "help".toList, "zmux-info".toList, "zmux-setup-storage".toList,
    "python".toList, "python3".toList, "git".toList, "linux".toList, "alpine".toList,
    "linux-setup".toList, "gates".toList, "zmux-pty-probe".toList]

/-- How `_enter_linux_pty` comes out, unless it returns at its first test. -/
inductive Entering where
  /-- Alpine is not installed, or there is no command line for it. -/
  | refused
  /-- No PTY. -/
  | failed
  | opened
deriving DecidableEq

/-- How `shell.execute` comes out. -/
inductive Execution where
  /-- `installed`: Alpine and `proot` are there after it. -/
  | returned (installed : Bool)
  /-- A `KeyboardInterrupt`. -/
  | interrupted
  /-- Another exception. -/
  | raised
deriving DecidableEq

/-- What the rest of the program answers during one step. -/
structure StepAnswers where
  entering : Entering
  /-- The first word is a command of the shell, or an external one. -/
  isCommand : Bool
  /-- `codeop.compile_command` returns `None`. -/
  incomplete : Bool
  execution : Execution

/-- Where the input thread is in `write_input`. -/
inductive WriterPc where
  | idle
  /-- It has the lock, and these characters are left. -/
  | writing (rest : List Char)
  /-- In `_submit_line`, after the busy flag was read. -/
  | submitting (line : TypedLine) (busy : Bool) (rest : List Char)
deriving DecidableEq

/-- Where the worker is in `_exec_loop`. -/
inductive RunnerPc where
  | waiting
  | dequeued (command : TypedCommand)
  /-- Busy is set. -/
  | running (command : TypedCommand)
  /-- In `shell.execute`; `source` when called by `_run_python_line`. -/
  | executing (source : Bool)
  /-- A line was added to the open block. -/
  | extended
  /-- Source has run, the open block is not cleared yet. -/
  | executed
  /-- At the start of `_finish_command`. -/
  | finishing
  | judged (interrupted : Bool)
  /-- Busy is clear. -/
  | cleared (interrupted : Bool)
  | resubmitting (leftovers : List TypedLine)
  | ended
deriving DecidableEq

/-- `gated` is a ghost: the command that runs, or ran last, was started at
the gate. -/
structure SetupGate where
  isRunning : Bool
  pty : Bool
  busy : Bool
  interrupt : Bool
  commandQueue : List TypedCommand
  stdinQueue : List TypedLine
  pythonLines : List Line
  mode : Mode
  awaitingAlpine : Bool
  startAlpineAfterCommand : Bool
  lineBuffer : Line
  escState : EscState
  history : List Line
  historyIndex : Option ℕ
  historyStash : Line
  writer : WriterPc
  runner : RunnerPc
  gated : Bool
  ran : List StartedLine

inductive SetupStep where
  /-- `write_input` with this text. -/
  | write (text : List Char)
  /-- The input thread goes on. -/
  | input (answers : StepAnswers)
  | work (answers : StepAnswers)
  /-- The command that runs takes a line from its stdin. -/
  | read
  /-- `_enter_linux_pty` after a PTY exited, or by the toggle. -/
  | enter (answers : StepAnswers)
  /-- The PTY exited, or was detached. -/
  | leave
  | stop

namespace SetupGate

/-- A session after `start`; with `true` Alpine is not there. -/
def start (awaitingAlpine : Bool) : SetupGate where
  isRunning := true
  pty := false
  busy := false
  interrupt := false
  commandQueue := []
  stdinQueue := []
  pythonLines := []
  mode := .shell
  awaitingAlpine := awaitingAlpine
  startAlpineAfterCommand := false
  lineBuffer := []
  escState := .ground
  history := []
  historyIndex := none
  historyStash := []
  writer := .idle
  runner := .waiting
  gated := false
  ran := []

/-! ## The PTY -/

/-- `_enter_linux_pty`. -/
def enterLinuxPty (entering : Entering) (s : SetupGate) : SetupGate :=
  if s.isRunning = false ∨ s.pty = true ∨ s.busy = true then s
  else match entering with
  | .refused => s
  | .failed => { s with mode := .shell }
  | .opened => { s with mode := .shell, pty := true }

/-! ## The keys -/

/-- What the line editor looks at. -/
def keyboard (s : SetupGate) : Keyboard :=
  { Keyboard.start false with
    console := { Console.start false with busy := s.busy, history := s.history }
    escState := s.escState
    lineBuffer := s.lineBuffer
    historyIndex := s.historyIndex
    historyStash := s.historyStash }

/-- `_handle_escape_char`. -/
def handleEscapeChar (s : SetupGate) (char : Char) : SetupGate :=
  let k := s.keyboard.handleEscapeChar char
  { s with
    escState := k.escState
    lineBuffer := k.lineBuffer
    historyIndex := k.historyIndex
    historyStash := k.historyStash }

/-- `_interrupt_running`. -/
def interruptRunning (s : SetupGate) : SetupGate :=
  { s with lineBuffer := [], pythonLines := [], interrupt := s.interrupt || s.busy }

/-- `_leave_repl`. -/
def leaveRepl (s : SetupGate) : SetupGate := { s with mode := .shell, pythonLines := [] }

/-- `_handle_char`, but for Enter. -/
def handleKey (s : SetupGate) (char : Char) : SetupGate :=
  if s.escState ≠ .ground ∨ char = escape then s.handleEscapeChar char
  else if char = ctrlC then s.interruptRunning
  else if char = '\x04' then
    if s.mode = .repl ∧ s.lineBuffer = [] ∧ s.busy = false then s.leaveRepl else s
  else if char = '\x7f' ∨ char = '\x08' then { s with lineBuffer := s.lineBuffer.dropLast }
  else if ' ' ≤ char then { s with lineBuffer := s.lineBuffer ++ [char] }
  else s

/-- Enter, outside of an escape sequence. -/
def submits (s : SetupGate) (char : Char) : Bool :=
  s.escState = .ground && (char = '\r' || char = '\n')

/-! ## Submission -/

/-- `_history_record`. -/
def historyRecord (s : SetupGate) (line : Line) : SetupGate :=
  let history :=
    if line ≠ [] ∧ s.history.getLast? ≠ some line then
      let history := s.history ++ [line]
      history.drop (history.length - 500)
    else s.history
  { s with history := history, historyIndex := none }

def verdictOn (s : SetupGate) (line : Line) : Verdict :=
  verdict s.busy s.awaitingAlpine s.mode s.pythonLines line

/-- `_submit_line` after the busy flag was found clear. -/
def handle (entering : Entering) (s : SetupGate) (line : TypedLine) : SetupGate :=
  let s' := if strip line.text = [] then s else s.historyRecord (strip line.text)
  match s.verdictOn line.text with
  | .ignore => s'
  | .queue mode => { s' with commandQueue := s'.commandQueue ++ [(line, mode)] }
  | .enterRepl => { s' with mode := .repl }
  | .enterAlpine => s'.enterLinuxPty entering
  | .leaveRepl => s'.leaveRepl

/-- `_submit_line`. -/
def submitLine (entering : Entering) (s : SetupGate) (line : TypedLine) : SetupGate :=
  if s.busy then { s with stdinQueue := s.stdinQueue ++ [line] } else s.handle entering line

/-- The input thread; the lock is given back after the last character. -/
def input (answers : StepAnswers) (s : SetupGate) : Option SetupGate :=
  match s.writer with
  | .idle => none
  | .writing [] => some { s with writer := .idle }
  | .writing (char :: rest) =>
    if s.submits char then
      some { s with writer := .submitting ⟨s.lineBuffer, s.busy && s.gated⟩ s.busy rest }
    else some { s.handleKey char with writer := .writing rest }
  | .submitting line true rest =>
    some { s with
      stdinQueue := s.stdinQueue ++ [line], lineBuffer := [], writer := .writing rest }
  | .submitting line false rest =>
    some { s.handle answers.entering line with lineBuffer := [], writer := .writing rest }

/-! ## The worker -/

/-- `_run_line`, up to the call of `execute`. -/
def runLine (answers : StepAnswers) (s : SetupGate) (command : TypedCommand) : SetupGate :=
  let isCommand := firstWord command.1.text ∈ sessionCommands ∨ answers.isCommand = true
  if command.2 = .shell ∧ isCommand then { s with runner := .executing false }
  else if answers.incomplete then
    { s with pythonLines := s.pythonLines ++ [command.1.text], runner := .extended }
  else { s with runner := .executing true }

/-- The end of `_execute_and_render`. -/
def rendered (installed : Bool) (s : SetupGate) : SetupGate :=
  if s.awaitingAlpine = true ∧ installed = true then
    { s with awaitingAlpine := false, startAlpineAfterCommand := true }
  else s

/-- `execute` is over. -/
def execute (execution : Execution) (s : SetupGate) (source : Bool) : SetupGate :=
  match execution with
  | .returned installed =>
    { s.rendered installed with runner := if source then .executed else .finishing }
  | .interrupted => { s with interrupt := true, runner := .finishing }
  | .raised => { s with runner := .finishing }

/-- The next step of the worker; `none` while it waits. -/
def work (answers : StepAnswers) (s : SetupGate) : Option SetupGate :=
  match s.runner with
  | .waiting =>
    if s.isRunning then
      match s.commandQueue with
      | [] => none
      | command :: rest => some { s with commandQueue := rest, runner := .dequeued command }
    else some { s with runner := .ended }
  | .dequeued command =>
    -- a Ctrl+C from here on keeps the flag
    some { s with
      busy := true
      interrupt := false
      gated := s.awaitingAlpine
      ran := s.ran ++ [⟨command.1, command.2, s.awaitingAlpine⟩]
      runner := .running command }
  | .running command => some (s.runLine answers command)
  | .executing source => some (s.execute answers.execution source)
  | .extended => some { s with busy := false, runner := .finishing }
  | .executed => some { s with pythonLines := [], runner := .finishing }
  | .finishing => some { s with runner := .judged s.interrupt }
  | .judged interrupted => some { s with busy := false, runner := .cleared interrupted }
  | .cleared true => some { s with stdinQueue := [], interrupt := false, runner := .waiting }
  | .cleared false =>
    if s.startAlpineAfterCommand then
      if s.writer = .idle then
        some ({ s with startAlpineAfterCommand := false, runner := .waiting }.enterLinuxPty
          answers.entering)
      else none
    else some { s with stdinQueue := [], runner := .resubmitting s.stdinQueue }
  | .resubmitting (line :: leftovers) =>
    if s.verdictOn line.text = .enterAlpine ∧ s.writer ≠ .idle then none
    else some { s.submitLine answers.entering line with runner := .resubmitting leftovers }
  | .resubmitting [] => some { s with runner := .waiting }
  | .ended => none

/-- The lock is free when the input thread is idle. -/
def step (s : SetupGate) : SetupStep → Option SetupGate
  | .write text =>
    if s.writer ≠ .idle then none
    else if s.isRunning = true ∧ s.pty = false then some { s with writer := .writing text }
    else some s
  | .input answers => s.input answers
  | .work answers => s.work answers
  | .read =>
    match s.runner, s.stdinQueue with
    | .executing _, _ :: rest => some { s with stdinQueue := rest }
    | _, _ => none
  | .enter answers =>
    if s.writer = .idle then some (s.enterLinuxPty answers.entering) else none
  | .leave => if s.writer = .idle ∧ s.pty = true then some { s with pty := false } else none
  | .stop =>
    if s.writer = .idle then
      some { s with
        isRunning := false, lineBuffer := [], pythonLines := [], pty := false, interrupt := true }
    else none

end SetupGate

end Zmux
