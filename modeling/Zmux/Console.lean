import Mathlib.Data.List.Basic
import Zmux.Text

/-!
# The host console

The input path and the worker of `PTYTerminalSession`: `_submit_line`,
`_exec_loop`, `_run_line`, `_run_python_line`, `_execute_and_render` and
`_finish_command` of `pty_session.py`.

Two threads share the session. The input thread submits the typed lines
one by one: it reads the busy flag, and either puts the line on the stdin
queue or treats it as a command line. The worker takes command lines from
its own queue; after each it drains the stdin queue and submits what is
left over the same way. Ctrl+C, `stop` and commands that read stdin are
left out, and so is everything the session prints.

What the shell, `codeop` and `linuxenv` answer is a parameter (`Host`).
The answers may depend on the command lines that ran before. `typed` and
`ran` are ghost state: the lines in the order they were submitted, and the
command lines in the order the worker started them.
-/

namespace Zmux

/-- A line without its line break. -/
abbrev Line := List Char

inductive Mode where
  | shell
  | repl
deriving DecidableEq

/-- A line on the command queue, with the mode it was submitted in. -/
abbrev Command := Line × Mode

/-- `_REPL_ENTER`. -/
def replEnter : List Line := ["python".toList, "python3".toList]

/-- `_REPL_EXIT`. -/
def replExit : List Line := ["exit".toList, "quit".toList, "exit()".toList, "quit()".toList]

/-- `_ALPINE_ENTER`. -/
def alpineEnter : List Line := ["linux".toList, "alpine".toList]

structure Host where
  /-- The word is in `_shell_commands`, or `_is_external_command`. -/
  isCommand : List Command → List Char → Bool
  /-- `codeop.compile_command` returns `None`. -/
  incomplete : List Char → Bool
  /-- The last of these command lines raises. -/
  raises : List Command → Bool
  /-- Alpine is installed and `proot` is there. -/
  alpineInstalled : List Command → Bool
  /-- The session has no PTY yet, and one can be started. -/
  alpineStarts : List Command → Bool

/-! ## The pure decisions -/

/-- What `_submit_line` does with a line that is not for the stdin queue. -/
inductive Verdict where
  /-- Nothing but a prompt or a message. -/
  | ignore
  | queue (mode : Mode)
  | enterRepl
  | enterAlpine
  | leaveRepl
deriving DecidableEq

def verdict (busy awaitingAlpine : Bool) (mode : Mode) (pythonLines : List Line) (line : Line) :
    Verdict :=
  let stripped := strip line
  if stripped = [] then
    -- a blank line closes an open block
    if pythonLines ≠ [] then .queue mode else .ignore
  else if awaitingAlpine then
    if stripped = "linux-setup".toList then .queue .shell else .ignore
  else if mode = .shell ∧ stripped ∈ replEnter then .enterRepl
  else if mode = .shell ∧ busy = false ∧ stripped ∈ alpineEnter then .enterAlpine
  else if mode = .repl ∧ stripped ∈ replExit then .leaveRepl
  else .queue mode

/-- What `_run_line` does with a command line. -/
inductive Outcome where
  /-- A command of the shell. -/
  | command
  /-- One more line of an incomplete block. -/
  | block
  /-- Python source, with the lines of the open block. -/
  | source
deriving DecidableEq

def outcome (host : Host) (ran : List Command) (pythonLines : List Line) : Command → Outcome
  | (line, mode) =>
    if mode = .shell ∧ host.isCommand ran (firstWord line) = true then .command
    else if host.incomplete (['\n'].intercalate (pythonLines ++ [line])) = true then .block
    else .source

/-! ## The session -/

/-- Where the input thread is in `_submit_line`. -/
inductive InputPc where
  | idle
  /-- It has read the busy flag. -/
  | checked (line : Line) (busy : Bool)
deriving DecidableEq

/-- Where the worker is in `_exec_loop`. -/
inductive WorkerPc where
  | waiting
  | dequeued (command : Command)
  | running (command : Command)
  /-- A line has been added to the open block, busy is not cleared yet. -/
  | extended
  /-- Source has run, the open block is not cleared yet. -/
  | executed
  /-- At the start of `_finish_command`. -/
  | finishing
  /-- It has cleared busy. -/
  | cleared
  | resubmitting (leftovers : List Line)
deriving DecidableEq

structure Console where
  busy : Bool
  commandQueue : List Command
  stdinQueue : List Line
  pythonLines : List Line
  mode : Mode
  awaitingAlpine : Bool
  startAlpineAfterCommand : Bool
  history : List Line
  input : InputPc
  worker : WorkerPc
  typed : List Line
  ran : List Command

inductive ConsoleStep where
  /-- A line is complete, and the input thread reads the busy flag. -/
  | type (line : Line)
  /-- The rest of `_submit_line`. -/
  | submit
  | work

namespace Console

def start (awaitingAlpine : Bool) : Console where
  busy := false
  commandQueue := []
  stdinQueue := []
  pythonLines := []
  mode := .shell
  awaitingAlpine := awaitingAlpine
  startAlpineAfterCommand := false
  history := []
  input := .idle
  worker := .waiting
  typed := []
  ran := []

/-- `_history_record` with `HISTORY_LIMIT`. -/
def historyRecord (s : Console) (line : Line) : Console :=
  if line ≠ [] ∧ s.history.getLast? ≠ some line then
    let history := s.history ++ [line]
    { s with history := history.drop (history.length - 500) }
  else s

/-- `_enter_linux_pty`. -/
def enterLinuxPty (host : Host) (s : Console) : Console :=
  if s.busy = false ∧ host.alpineStarts s.ran = true then { s with mode := .shell } else s

/-- `_submit_line` after the busy flag was found clear. -/
def handle (host : Host) (s : Console) (line : Line) : Console :=
  let s := s.historyRecord (strip line)
  match verdict s.busy s.awaitingAlpine s.mode s.pythonLines line with
  | .ignore => s
  | .queue mode => { s with commandQueue := s.commandQueue ++ [(line, mode)] }
  | .enterRepl => { s with mode := .repl }
  | .enterAlpine => s.enterLinuxPty host
  | .leaveRepl => { s with mode := .shell, pythonLines := [] }

/-- `_submit_line`. -/
def submitLine (host : Host) (s : Console) (line : Line) : Console :=
  if s.busy then { s with stdinQueue := s.stdinQueue ++ [line] } else s.handle host line

/-- The end of `_execute_and_render`, unless the execution raised. -/
def rendered (host : Host) (s : Console) : Console :=
  if s.awaitingAlpine = true ∧ host.alpineInstalled s.ran = true then
    { s with awaitingAlpine := false, startAlpineAfterCommand := true }
  else s

/-- `_run_line`, up to the point where busy or the open block is cleared. -/
def runLine (host : Host) (s : Console) (command : Command) : Console :=
  let s' := { s with ran := s.ran ++ [command] }
  match outcome host s.ran s.pythonLines command with
  | .block =>
    { s' with pythonLines := s.pythonLines ++ [command.1], worker := .extended }
  | .command =>
    if host.raises s'.ran then { s' with worker := .finishing }
    else { s'.rendered host with worker := .finishing }
  | .source =>
    if host.raises s'.ran then { s' with worker := .finishing }
    else { s'.rendered host with worker := .executed }

/-- The next step of the worker; `none` while it waits for a command. -/
def work (host : Host) (s : Console) : Option Console :=
  match s.worker with
  | .waiting =>
    match s.commandQueue with
    | [] => none
    | command :: rest => some { s with commandQueue := rest, worker := .dequeued command }
  | .dequeued command => some { s with busy := true, worker := .running command }
  | .running command => some (s.runLine host command)
  | .extended => some { s with busy := false, worker := .finishing }
  | .executed => some { s with pythonLines := [], worker := .finishing }
  | .finishing => some { s with busy := false, worker := .cleared }
  | .cleared =>
    if s.startAlpineAfterCommand then
      some ({ s with startAlpineAfterCommand := false, worker := .waiting }.enterLinuxPty host)
    else some { s with stdinQueue := [], worker := .resubmitting s.stdinQueue }
  | .resubmitting (line :: leftovers) =>
    some { s.submitLine host line with worker := .resubmitting leftovers }
  | .resubmitting [] => some { s with worker := .waiting }

def step (host : Host) (s : Console) : ConsoleStep → Option Console
  | .type line =>
    match s.input with
    | .idle => some { s with input := .checked line s.busy, typed := s.typed ++ [line] }
    | .checked _ _ => none
  | .submit =>
    match s.input with
    | .idle => none
    | .checked line true =>
      some { s with stdinQueue := s.stdinQueue ++ [line], input := .idle }
    | .checked line false => some { s.handle host line with input := .idle }
  | .work => s.work host

/-- Nothing moves any more unless another line is typed. -/
def AtRest (s : Console) : Prop :=
  s.input = .idle ∧ s.worker = .waiting ∧ s.commandQueue = []

end Console

end Zmux
