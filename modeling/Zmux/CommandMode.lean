import Mathlib.Data.List.Infix
import Mathlib.Data.Nat.Digits.Defs
import Mathlib.Tactic.SplitIfs
import Mathlib.Tactic.Tauto
import Zmux.Pipeline
import Zmux.Text

/-!
# Command mode

`execute` and `execute_command` of `python_shell.py`: two chains of the
same checks, the second without the fallback to Python. What they call is
in a `Host`: each operation returns or raises, and changes the world. The
pipeline executor, which both call first for a line with an operator, is
modelled step by step.

In `execute` the call of the pipeline stands inside of the `try`, in
`execute_command` it does not. So the two agree on the lines of commands
unless an operation of a pipeline is refused (`agrees_iff`).
-/

namespace Zmux

open Shlex (Word)
open Pipeline (Redirects Parsed ParseError)

namespace CommandMode

/-! ## Operations -/

/-- What is raised, with `str(exc)` where it is shown. -/
inductive Exn where
  | osError (text : List Char)
  | valueError (text : List Char)
  | timeoutExpired
  | other
deriving DecidableEq

/-- `except (OSError, ValueError) as exc`. -/
def Exn.caught? : Exn → Option (List Char)
  | .osError text | .valueError text => some text
  | .timeoutExpired | .other => none

/-- An operation on a world; what it did before it raised is done. -/
def Op (W α : Type) := W → Except Exn α × W

namespace Op

variable {W α β : Type}

def raise (e : Exn) : Op W α := fun w => (.error e, w)

/-- What is looked up in the world. -/
def look (f : W → α) : Op W α := fun w => (.ok (f w), w)

protected def bind (op : Op W α) (f : α → Op W β) : Op W β := fun w =>
  match op w with
  | (.ok a, w) => f a w
  | (.error e, w) => (.error e, w)

instance : Monad (Op W) where
  pure a := fun w => (.ok a, w)
  bind := Op.bind

def tryCatch (op : Op W α) (handle : Exn → Op W α) : Op W α := fun w =>
  match op w with
  | (.ok a, w) => (.ok a, w)
  | (.error e, w) => handle e w

/-- A `finally` block that does not raise. -/
def andFinally (op : Op W α) (f : W → W) : Op W α := fun w => ((op w).1, f (op w).2)

end Op

/-- `_result`; `streamed` stands for both streams. -/
structure Result where
  stdout : List Char
  stderr : List Char
  exitCode : ℤ
  streamed : Bool
deriving DecidableEq

def Result.empty : Result := ⟨[], [], 0, false⟩

/-- Of the processes of a pipeline: the output of the last, the errors of
all, the return codes. -/
structure Collected where
  stdout : List Char
  stderr : List Char
  codes : List ℤ

/-- What the shell calls: its built-ins and the other executors, and the
operations of a pipeline. -/
structure Host (W Path : Type) where
  path : Word → W → Except Exn Path
  findExecutable : Word → W → Option Word
  builtin : (command : Word) → (args : List Word) → Op W (List Char)
  execLinux : (command : Word) → (args : List Word) → (timeout : Option Word) → Op W Result
  execZmuxCommand : (command : Word) → (args : List Word) → Op W Result
  execPythonCommand : (args : List Word) → Op W Result
  execPython : (source : List Char) → (origin : Option (List Char)) → Op W Result
  strictHostCommands : W → Bool
  looksLikeCommand : List Char → W → Bool
  /-- `output_sink`, if there is one. -/
  sink : Option (List Char → Op W Unit)
  openInput : Path → Op W Unit
  spawn : (executable : Word) → (args : List Word) → Op W Unit
  /-- `_read_stdout_streaming` and the waits after it. -/
  collect : (timeout : Option Word) → Op W Collected
  kill : W → W
  write : Path → (append : Bool) → List Char → Op W Unit
  /-- The `finally` block of the executor. -/
  cleanup : W → W

/-! ## `shlex.split` -/

/-- Without comments. -/
def feed (s : Shlex.Lexer) (c : Char) : Shlex.Lexer :=
  if c = '#' then
    match s.state with
    | .blank => { s with token := ['#'], state := .word }
    | .word => { s with token := s.token ++ ['#'] }
    | _ => s.feed [] c
  else s.feed [] c

def split (line : List Char) : Except Shlex.LexError (List Word) :=
  (line.foldl feed Shlex.Lexer.start).finish

/-! ## The pipeline executor -/

/-- Parsing ends with an exception or with a result of code 2. -/
inductive Failure where
  | raised (e : Exn)
  | rejected (e : ParseError)

/-- The `ValueError` of the lexer is raised, the other errors are results. -/
def Failure.ofParse : ParseError → Failure
  | .lexer error => .raised (.valueError error.text.toList)
  | e => .rejected e

section Executor

variable {W Path : Type}

/-- The `while` loop over the tokens of one stage; `_path` may raise. -/
def scanStage (path : Word → Except Exn Path) (isFirst isLast : Bool) :
    List Word → (argv : List Word) → Redirects Path → Except Failure (List Word × Redirects Path)
  | [], argv, r => .ok (argv, r)
  | [token], argv, r =>
    if token ∈ [Pipeline.input, Pipeline.output, Pipeline.appendTo] then
      .error (.rejected (.missingTarget token))
    else .ok (argv ++ [token], r)
  | token :: target :: rest, argv, r =>
    if token ∈ [Pipeline.input, Pipeline.output, Pipeline.appendTo] then
      match path target with
      | .error e => .error (.raised e)
      | .ok file =>
        if token = Pipeline.input ∧ isFirst = true then
          scanStage path isFirst isLast rest argv { r with inputFile := some file }
        else if token ∈ [Pipeline.output, Pipeline.appendTo] ∧ isLast = true then
          scanStage path isFirst isLast rest argv
            { r with outputFile := some file, append := decide (token = Pipeline.appendTo) }
        else .error (.rejected .notAtEdge)
    else scanStage path isFirst isLast (target :: rest) (argv ++ [token]) r

def scanStages (path : Word → Except Exn Path) : (isFirst : Bool) → List (List Word) →
    Redirects Path → Except Failure (Parsed Path)
  | _, [], r => .ok ⟨[], r⟩
  | isFirst, stage :: rest, r => do
    let (argv, r) ← scanStage path isFirst rest.isEmpty stage [] r
    if argv.isEmpty then .error (.rejected .invalidCommand)
    else
      let parsed ← scanStages path false rest r
      .ok ⟨argv :: parsed.stages, parsed.redirects⟩

def parse (path : Word → Except Exn Path) (line : List Char) : Except Failure (Parsed Path) :=
  match Shlex.lex ['|', '<', '>'] line with
  | .error error => .error (.raised (.valueError error.text.toList))
  | .ok tokens =>
    let stages := Pipeline.splitStages tokens []
    if stages.any List.isEmpty then .error (.rejected .invalidPipeline)
    else scanStages path true stages .none

/-! ### Paths that do not raise

With these the parser is that of `Pipeline`. -/

theorem scanStage_total (path : Word → Path) (isFirst isLast : Bool) (stage argv : List Word)
    (r : Redirects Path) : scanStage (fun word => .ok (path word)) isFirst isLast stage argv r
      = (Pipeline.scanStage path isFirst isLast stage argv r).mapError Failure.ofParse := by
  fun_induction Pipeline.scanStage path isFirst isLast stage argv r with
  | case1 => rfl
  | case2 token argv r h => rw [scanStage, if_pos h]; rfl
  | case3 token argv r h => rw [scanStage, if_neg h]; rfl
  | case4 token target rest argv r h hinput ih =>
      rw [scanStage, if_pos h]
      dsimp only
      rw [if_pos hinput, ih]
  | case5 token target rest argv r h hinput houtput ih =>
      rw [scanStage, if_pos h]
      dsimp only
      rw [if_neg hinput, if_pos houtput, ih]
  | case6 token target rest argv r h hinput houtput =>
      rw [scanStage, if_pos h]
      dsimp only
      rw [if_neg hinput, if_neg houtput]
      rfl
  | case7 token target rest argv r h ih => rw [scanStage, if_neg h, ih]

theorem scanStages_total (path : Word → Path) (isFirst : Bool) (stages : List (List Word))
    (r : Redirects Path) : scanStages (fun word => .ok (path word)) isFirst stages r
      = (Pipeline.scanStages path isFirst stages r).mapError Failure.ofParse := by
  induction stages generalizing isFirst r with
  | nil => rfl
  | cons stage stages ih =>
      rw [scanStages, Pipeline.scanStages, scanStage_total]
      cases Pipeline.scanStage path isFirst stages.isEmpty stage [] r with
      | error e => rfl
      | ok scanned =>
          obtain ⟨argv, r⟩ := scanned
          show (if argv.isEmpty = true then _ else _) = Except.mapError _ (if argv.isEmpty = true
            then _ else _)
          split
          · rfl
          · rw [ih]
            cases Pipeline.scanStages path false stages r <;> rfl

theorem parse_total (path : Word → Path) (line : List Char) :
    parse (fun word => .ok (path word)) line
      = (Pipeline.parse path line).mapError Failure.ofParse := by
  rw [parse, Pipeline.parse]
  cases Shlex.lex ['|', '<', '>'] line with
  | error error => rfl
  | ok tokens =>
      show (if _ then _ else _) = Except.mapError _ (if _ then _ else _)
      split
      · rfl
      · exact scanStages_total path true _ _

variable (host : Host W Path)

/-- The loop that spawns the stages; a stage without an executable ends it
with its name. -/
def spawnAll : List (List Word) → Op W (Option Word)
  | [] => pure none
  | stage :: stages => do
    match ← Op.look (host.findExecutable (stage.headD [])) with
    | none => pure (some (stage.headD []))
    | some executable =>
      host.spawn executable stage.tail
      spawnAll stages

/-- `next((p.returncode for p in processes if p.returncode), 0)`. -/
def exitCode (codes : List ℤ) : ℤ := (codes.find? (· ≠ 0)).getD 0

def signalHint (code : ℤ) : List Char :=
  if code < 0 then
    "[process terminated by signal ".toList ++ Nat.toDigits 10 code.natAbs
      ++ (if code = -9 then
        " — SIGKILL; on Android 12+ this is often the OS phantom-process limit".toList else [])
      ++ "]\n".toList
  else []

/-- `source_handle`. -/
def openSource : Option Path → Op W Unit
  | none => pure ()
  | some file => host.openInput file

/-- What is left of the output when it was redirected. -/
def writeOutput (redirects : Redirects Path) (stdout : List Char) : Op W (List Char) :=
  match redirects.outputFile with
  | none => pure stdout
  | some file => do
    host.write file redirects.append stdout
    pure []

/-- `did_stream`. -/
def didStream (redirects : Redirects Path) : Bool :=
  host.sink.isSome && redirects.outputFile.isNone

/-- The hint goes to the screen with the errors that were streamed. -/
def showHint (redirects : Redirects Path) (code : ℤ) : Op W Unit :=
  match host.sink, redirects.outputFile with
  | some sink, none => if code < 0 then sink (signalHint code) else pure ()
  | _, _ => pure ()

/-- What is left of the `try` block once the stages run. -/
def finish (parsed : Parsed Path) (timeout : Option Word) : Op W Result := do
  let collected ← host.collect timeout
  let stdout ← writeOutput host parsed.redirects collected.stdout
  let code := exitCode collected.codes
  showHint host parsed.redirects code
  pure ⟨stdout, collected.stderr ++ signalHint code, code, didStream host parsed.redirects⟩

/-- The `try` block. -/
def runPipeline (parsed : Parsed Path) (timeout : Option Word) : Op W Result := do
  openSource host parsed.redirects.inputFile
  match ← spawnAll host parsed.stages with
  | some name => pure ⟨[], name ++ ": command not found\n".toList, 127, false⟩
  | none => finish host parsed timeout

/-- `except subprocess.TimeoutExpired`. -/
def timedOut (timeout : Option Word) : Exn → Op W Result
  | .timeoutExpired => fun w =>
    (.ok ⟨[], "Command timed out after ".toList ++ timeout.getD "None".toList ++ "s\n".toList, 1,
      false⟩, host.kill w)
  | e => Op.raise e

/-- `_exec_subprocess`. -/
def execSubprocess (line : List Char) (timeout : Option Word) : Op W Result := fun w =>
  match parse (fun word => host.path word w) line with
  | .error (.raised e) => (.error e, w)
  | .error (.rejected e) => (.ok ⟨[], e.text, 2, false⟩, w)
  | .ok parsed =>
    (((runPipeline host parsed timeout).tryCatch (timedOut host timeout)).andFinally
      host.cleanup) w

end Executor

/-! ## Dispatch -/

/-- `UNSUPPORTED_OPERATORS`. -/
def unsupportedOperators : List (Word × List Char) :=
  [("&&".toList, "'&&' (conditional AND)".toList), ("||".toList, "'||' (conditional OR)".toList),
    ("2>&1".toList, "'2>&1' (stream merging)".toList),
    (";".toList, "';' (command sequencing)".toList), ("&".toList, "'&' (background jobs)".toList),
    (['\x60'], "'\x60...\x60' (command substitution)".toList),
    ("$(".toList, "'$(...)' (command substitution)".toList)]

/-- Whether the tokens use an operator: substitutions are found inside of
tokens, and a `;` at the end of one. -/
def uses (operator : Word) (parts : List Word) : Bool :=
  operator ∈ parts
    || (operator ∈ [['\x60'], "$(".toList] && parts.any fun token => operator <:+: token)
    || (operator = ";".toList && parts.any fun token => operator <:+ token)

def noShellLanguage (description : List Char) : List Char :=
  "zmux: ".toList ++ description ++ (" is not supported — ZMUX has no shell language.\n"
    ++ "  Supported: pipelines (|), redirection (> >> <), quoting.\n").toList

/-- `_unsupported_operator`. -/
def unsupportedOperator (parts : List Word) : Option Result :=
  (unsupportedOperators.find? fun entry => uses entry.1 parts).map fun entry =>
    ⟨[], noShellLanguage entry.2 ++ ("  For shell logic use Python instead, e.g. "
      ++ "subprocess.run(...) or run commands one per line.\n").toList, 2, false⟩

/-- The check of `execute` for `true` and `false`. -/
def unsupportedAfterTrue (command : Word) (parts : List Word) : Option Result :=
  if command ∈ ["true".toList, "false".toList] then
    (unsupportedOperators.find? fun entry => entry.1 ≠ "&".toList && uses entry.1 parts).map
      fun entry => ⟨[], noShellLanguage entry.2, 2, false⟩
  else none

/-- The keys of `self.commands`. -/
def commands : List Word :=
  ["ls", "mkdir", "rm", "cp", "mv", "cat", "touch", "echo", "pwd", "cd", "clear", "env", "which",
    "uname"].map String.toList

def linuxCommands : List Word := ["git", "linux", "alpine"].map String.toList

def appCommands : List Word := ["linux-setup", "gates", "zmux-pty-probe"].map String.toList

def pythonCommands : List Word := ["python", "python3"].map String.toList

def packageCommands : List Word :=
  ["pip", "zpip", "help", "zmux-info", "zmux-setup-storage"].map String.toList

/-- `_command_names`. -/
def commandNames : List Word :=
  commands ++ (linuxCommands ++ (appCommands ++ (pythonCommands ++ packageCommands)))

/-- `PYTHON_KEYWORD_GUARD`. -/
def pythonKeywordGuard : List Word :=
  ["import", "from", "print", "exec", "eval", "assert", "del", "pass", "raise", "return", "yield",
    "lambda", "with", "while", "for", "if", "else", "elif", "try", "except", "finally", "class",
    "def", "global", "nonlocal", "not", "and", "or", "is", "in", "break", "continue", "async",
    "await", "match", "case", "true", "false", "none"].map String.toList

/-- `KNOWN_TUI_COMMANDS`. -/
def knownTuiCommands : List Word :=
  ["nano", "vim", "vi", "emacs", "htop", "top", "less", "more", "micro", "joe", "mcedit", "ranger",
    "screen", "tmux"].map String.toList

def needsTty (command : Word) : List Char :=
  "zmux: ".toList ++ command ++ " needs a real TTY, which ZMUX does not provide (no PTY).\n".toList

def tuiAdvice (command : Word) : List Char :=
  "  Non-interactive use can still go through the Alpine sandbox, e.g.:  linux ".toList ++ command
    ++ (" --help\n  To edit files, use the Python runtime:  python\n"
    ++ "    (open('file','w').write(...))  or  cat > file\n").toList

/-- `_command_not_found`. -/
def commandNotFound (line : List Char) : Result :=
  ⟨[], "zmux: ".toList ++ firstWord line ++ ": command not found\n".toList, 127, false⟩

/-- `any(x in line for x in ("|", ">", "<"))`. -/
def hasOperator (line : List Char) : Bool := '|' ∈ line || '>' ∈ line || '<' ∈ line

section Dispatch

variable {W Path : Type} (host : Host W Path)

/-- `_is_external_command`. -/
def isExternalCommand (command : Word) (w : W) : Bool :=
  command ∉ pythonKeywordGuard && (host.findExecutable command w).isSome

/-- `except (OSError, ValueError) as exc` of both. -/
def showError (command : Word) (e : Exn) : Op W Result :=
  match e.caught? with
  | some text => pure ⟨[], command ++ ": ".toList ++ text ++ ['\n'], 1, false⟩
  | none => Op.raise e

/-- The chain of both; `otherwise` is what comes after the external
commands. -/
def dispatch (command : Word) (args : List Word) (line : List Char) (timeout : Option Word)
    (otherwise : Op W Result) : Op W Result :=
  if command ∈ commands then do
    let stdout ← host.builtin command args
    pure ⟨stdout, [], 0, false⟩
  else if command ∈ linuxCommands then host.execLinux command args timeout
  else if command ∈ appCommands then host.execZmuxCommand command args
  else if command ∈ pythonCommands then host.execPythonCommand args
  else if command ∈ packageCommands then host.execZmuxCommand command args
  else do
    if ← Op.look (isExternalCommand host command) then execSubprocess host line timeout
    else otherwise

/-- The end of the chain in `execute`. -/
def otherwiseExecute (command : Word) (line : List Char) : Op W Result :=
  if command ∈ knownTuiCommands then pure ⟨[], needsTty command ++ tuiAdvice command, 1, false⟩
  else do
    if ← Op.look fun w => host.strictHostCommands w && host.looksLikeCommand line w then
      pure (commandNotFound line)
    else host.execPython line (some line)

/-- The end of the chain in `execute_command`. -/
def otherwiseCommand (command : Word) (line : List Char) : Op W Result :=
  if command ∈ knownTuiCommands then pure ⟨[], needsTty command, 1, false⟩
  else pure (commandNotFound line)

/-- What both do before they look at the command. -/
def readLine (line : List Char) (run : (command : Word) → (args : List Word) → Op W Result) :
    Op W Result :=
  if line = [] then pure .empty
  else
    match split line with
    | .error e => pure ⟨[], "parse error: ".toList ++ e.text.toList ++ ['\n'], 2, false⟩
    | .ok [] => pure .empty
    | .ok (command :: args) => run command args

/-- `execute`, without `force_python`. -/
def execute (line : List Char) (timeout : Option Word) : Op W Result :=
  let line := strip line
  readLine line fun command args => do
    let guarded ← Op.look fun w =>
      decide (command ∈ commandNames) || isExternalCommand host command w
    match if guarded then unsupportedOperator (command :: args) else none with
    | some rejection => pure rejection
    | none =>
      match unsupportedAfterTrue command (command :: args) with
      | some rejection => pure rejection
      | none =>
        Op.tryCatch
          (if hasOperator line then execSubprocess host line timeout
            else dispatch host command args line timeout (otherwiseExecute host command line))
          (showError command)

/-- `execute_command`. -/
def executeCommand (line : List Char) (timeout : Option Word) : Op W Result :=
  let line := strip line
  readLine line fun command args =>
    match unsupportedOperator (command :: args) with
    | some rejection => pure rejection
    | none =>
      if hasOperator line then execSubprocess host line timeout
      else
        Op.tryCatch
          (dispatch host command args line timeout (otherwiseCommand command line))
          (showError command)

end Dispatch

/-! ## Refused operations -/

/-- The operation raises `OSError` or `ValueError`. -/
def Op.Refused {W α : Type} (op : Op W α) (w : W) : Prop :=
  ∃ e, (op w).1 = .error e ∧ e.caught?.isSome = true

section Refusal

variable {W Path : Type}

/-- All the stages have an executable and are spawned. -/
inductive Spawned (host : Host W Path) : List (List Word) → W → W → Prop
  | nil {w} : Spawned host [] w w
  | cons {stage stages executable w w₁ w₂}
      (hfind : host.findExecutable (stage.headD []) w = some executable)
      (hspawn : host.spawn executable stage.tail w = (.ok (), w₁))
      (hrest : Spawned host stages w₁ w₂) : Spawned host (stage :: stages) w w₂

/-- The input file, if there is one, is opened. -/
def Opened (host : Host W Path) (parsed : Parsed Path) (w w' : W) : Prop :=
  openSource host parsed.redirects.inputFile w = (.ok (), w')

/-- The host refuses an operation of the pipeline, after those before it. -/
inductive PipelineRefused (host : Host W Path) (parsed : Parsed Path) (timeout : Option Word)
    (w : W) : Prop
  | input {file} (hfile : parsed.redirects.inputFile = some file)
      (h : (host.openInput file).Refused w)
  | spawn {front stage back executable w₀ w₁} (hopen : Opened host parsed w w₀)
      (hstages : parsed.stages = front ++ stage :: back) (hfront : Spawned host front w₀ w₁)
      (hfind : host.findExecutable (stage.headD []) w₁ = some executable)
      (h : (host.spawn executable stage.tail).Refused w₁)
  | collect {w₀ w₁} (hopen : Opened host parsed w w₀)
      (hspawned : Spawned host parsed.stages w₀ w₁) (h : (host.collect timeout).Refused w₁)
  | write {w₀ w₁ w₂ collected file} (hopen : Opened host parsed w w₀)
      (hspawned : Spawned host parsed.stages w₀ w₁)
      (hcollect : host.collect timeout w₁ = (.ok collected, w₂))
      (hfile : parsed.redirects.outputFile = some file)
      (h : (host.write file parsed.redirects.append collected.stdout).Refused w₂)
  | hint {w₀ w₁ w₂ collected sink} (hopen : Opened host parsed w w₀)
      (hspawned : Spawned host parsed.stages w₀ w₁)
      (hcollect : host.collect timeout w₁ = (.ok collected, w₂))
      (hfile : parsed.redirects.outputFile = none) (hsink : host.sink = some sink)
      (hcode : exitCode collected.codes < 0)
      (h : (sink (signalHint (exitCode collected.codes))).Refused w₂)

/-- The line does not lex, the path of a redirection raises, or an
operation of the pipeline is refused. -/
def LineRefused (host : Host W Path) (line : List Char) (timeout : Option Word) (w : W) : Prop :=
  match parse (fun word => host.path word w) line with
  | .error (.raised e) => e.caught?.isSome = true
  | .error (.rejected _) => False
  | .ok parsed => PipelineRefused host parsed timeout w

variable {host : Host W Path} {w w' : W}

theorem refused_pure {α : Type} (a : α) : ¬(pure a : Op W α).Refused w := by
  rintro ⟨e, h, -⟩
  cases h

theorem refused_bind {α β : Type} {op : Op W α} {f : α → Op W β} :
    (op >>= f).Refused w ↔ op.Refused w ∨ ∃ a w', op w = (.ok a, w') ∧ (f a).Refused w' := by
  have hbind : (op >>= f) w = Op.bind op f w := rfl
  rw [Op.Refused, hbind, Op.bind, Op.Refused]
  constructor
  · rintro ⟨e, h, hcaught⟩
    cases hop : op w with
    | mk result w' =>
        rw [hop] at h
        cases result with
        | error e' =>
            obtain rfl : e' = e := Except.error.inj h
            exact Or.inl ⟨e', rfl, hcaught⟩
        | ok a => exact Or.inr ⟨a, w', rfl, e, h, hcaught⟩
  · rintro (⟨e, h, hcaught⟩ | ⟨a, w', hop, e, h, hcaught⟩)
    · cases hop : op w with
      | mk result w' =>
          rw [hop] at h
          obtain rfl : result = .error e := h
          exact ⟨e, rfl, hcaught⟩
    · rw [hop]
      exact ⟨e, h, hcaught⟩

theorem bind_ok {α β : Type} {op : Op W α} {f : α → Op W β} {b : β} :
    (op >>= f) w = (.ok b, w') ↔ ∃ a w₁, op w = (.ok a, w₁) ∧ f a w₁ = (.ok b, w') := by
  have hbind : (op >>= f) w = Op.bind op f w := rfl
  rw [hbind, Op.bind]
  cases hop : op w with
  | mk result w₁ =>
      cases result with
      | error e => simp
      | ok a => simp

theorem spawnAll_ok_iff {stages : List (List Word)} :
    spawnAll host stages w = (.ok none, w') ↔ Spawned host stages w w' := by
  induction stages generalizing w with
  | nil =>
      constructor
      · intro h
        obtain ⟨-, rfl⟩ := Prod.mk.inj h
        exact .nil
      · rintro ⟨⟩
        rfl
  | cons stage stages ih =>
      rw [spawnAll, bind_ok]
      constructor
      · rintro ⟨found, w₁, hlook, h⟩
        obtain ⟨hfound, rfl⟩ := Prod.mk.inj hlook
        obtain rfl := Except.ok.inj hfound
        cases hfind : host.findExecutable (stage.headD []) w with
        | none =>
            rw [hfind] at h
            cases h
        | some executable =>
            rw [hfind] at h
            obtain ⟨⟨⟩, w₁, hspawn, hrest⟩ := bind_ok.mp h
            exact .cons hfind hspawn (ih.mp hrest)
      · rintro (_ | ⟨hfind, hspawn, hrest⟩)
        refine ⟨_, w, rfl, ?_⟩
        rw [hfind]
        exact bind_ok.mpr ⟨(), _, hspawn, ih.mpr hrest⟩

theorem spawnAll_refused_iff {stages : List (List Word)} :
    (spawnAll host stages).Refused w ↔ ∃ front stage back executable w₁,
      stages = front ++ stage :: back ∧ Spawned host front w w₁ ∧
        host.findExecutable (stage.headD []) w₁ = some executable ∧
        (host.spawn executable stage.tail).Refused w₁ := by
  induction stages generalizing w with
  | nil =>
      constructor
      · exact fun h => absurd h (refused_pure none)
      · rintro ⟨front, stage, back, executable, w₁, hstages, -⟩
        exact absurd hstages (by simp)
  | cons stage stages ih =>
      rw [spawnAll, refused_bind]
      constructor
      · rintro (⟨e, h, -⟩ | ⟨found, w₁, hlook, h⟩)
        · cases h
        obtain ⟨hfound, rfl⟩ := Prod.mk.inj hlook
        obtain rfl := Except.ok.inj hfound
        cases hfind : host.findExecutable (stage.headD []) w with
        | none =>
            rw [hfind] at h
            exact absurd h (refused_pure _)
        | some executable =>
            rw [hfind] at h
            rcases refused_bind.mp h with hspawn | ⟨⟨⟩, w₁, hspawn, hrest⟩
            · exact ⟨[], stage, stages, executable, w, rfl, .nil, hfind, hspawn⟩
            · obtain ⟨front, stage', back, executable', w₂, rfl, hfront, hfind', h'⟩ := ih.mp hrest
              exact ⟨stage :: front, stage', back, executable', w₂, rfl,
                .cons hfind hspawn hfront, hfind', h'⟩
      · rintro ⟨front, stage', back, executable, w₁, hstages, hfront, hfind, h⟩
        refine Or.inr ⟨_, w, rfl, ?_⟩
        cases hfront with
        | nil =>
            obtain ⟨rfl, rfl⟩ := List.cons.inj hstages
            rw [hfind]
            exact refused_bind.mpr (Or.inl h)
        | cons hfind' hspawn hrest =>
            obtain ⟨rfl, rfl⟩ := List.cons.inj hstages
            rw [hfind']
            exact refused_bind.mpr (Or.inr ⟨(), _, hspawn,
              ih.mpr ⟨_, stage', back, executable, w₁, rfl, hrest, hfind, h⟩⟩)

theorem refused_openSource_iff {file? : Option Path} :
    (openSource host file?).Refused w ↔
      ∃ file, file? = some file ∧ (host.openInput file).Refused w := by
  cases file? with
  | none => exact ⟨fun h => absurd h (refused_pure ()), by rintro ⟨_, ⟨⟩, _⟩⟩
  | some file => exact ⟨fun h => ⟨file, rfl, h⟩, by rintro ⟨_, ⟨⟩, h⟩; exact h⟩

theorem refused_writeOutput_iff {redirects : Redirects Path} {stdout : List Char} :
    (writeOutput host redirects stdout).Refused w ↔ ∃ file, redirects.outputFile = some file ∧
      (host.write file redirects.append stdout).Refused w := by
  rw [writeOutput]
  cases redirects.outputFile with
  | none => exact ⟨fun h => absurd h (refused_pure _), by rintro ⟨_, ⟨⟩, _⟩⟩
  | some file =>
      dsimp only
      rw [refused_bind]
      constructor
      · rintro (h | ⟨_, _, -, h⟩)
        · exact ⟨file, rfl, h⟩
        · exact absurd h (refused_pure _)
      · rintro ⟨_, ⟨⟩, h⟩
        exact Or.inl h

theorem refused_showHint_iff {redirects : Redirects Path} {code : ℤ} :
    (showHint host redirects code).Refused w ↔ redirects.outputFile = none ∧
      ∃ sink, host.sink = some sink ∧ code < 0 ∧ (sink (signalHint code)).Refused w := by
  rw [showHint]
  cases host.sink with
  | none => exact ⟨fun h => absurd h (refused_pure ()), by rintro ⟨_, _, ⟨⟩, _⟩⟩
  | some sink =>
      cases redirects.outputFile with
      | some file => exact ⟨fun h => absurd h (refused_pure ()), by rintro ⟨⟨⟩, _⟩⟩
      | none =>
          dsimp only
          split
          · rename_i hcode
            exact ⟨fun h => ⟨rfl, sink, rfl, hcode, h⟩, by rintro ⟨_, _, ⟨⟩, _, h⟩; exact h⟩
          · rename_i hcode
            exact ⟨fun h => absurd h (refused_pure ()),
              by rintro ⟨_, _, _, h, _⟩; exact absurd h hcode⟩

/-- Writing an output that is not redirected changes nothing. -/
theorem writeOutput_none {redirects : Redirects Path} (h : redirects.outputFile = none)
    (stdout : List Char) : writeOutput host redirects stdout w = (.ok stdout, w) := by
  rw [writeOutput, h]
  rfl

theorem refused_finish_iff {parsed : Parsed Path} {timeout : Option Word} :
    (finish host parsed timeout).Refused w ↔ (host.collect timeout).Refused w ∨
      ∃ collected w', host.collect timeout w = (.ok collected, w') ∧
        ((∃ file, parsed.redirects.outputFile = some file ∧
          (host.write file parsed.redirects.append collected.stdout).Refused w') ∨
        parsed.redirects.outputFile = none ∧ ∃ sink, host.sink = some sink ∧
          exitCode collected.codes < 0 ∧
          (sink (signalHint (exitCode collected.codes))).Refused w') := by
  rw [finish, refused_bind]
  refine or_congr Iff.rfl (exists_congr fun collected => exists_congr fun w' =>
    and_congr_right fun _ => ?_)
  rw [refused_bind, refused_writeOutput_iff]
  refine or_congr Iff.rfl ?_
  constructor
  · rintro ⟨stdout, w₂, hwrite, h⟩
    rcases refused_bind.mp h with h | ⟨_, _, -, h⟩
    · obtain ⟨hfile, sink, hsink, hcode, h⟩ := refused_showHint_iff.mp h
      rw [writeOutput_none hfile] at hwrite
      obtain ⟨-, rfl⟩ := Prod.mk.inj hwrite
      exact ⟨hfile, sink, hsink, hcode, h⟩
    · exact absurd h (refused_pure _)
  · rintro ⟨hfile, hhint⟩
    exact ⟨_, w', writeOutput_none hfile _,
      refused_bind.mpr (Or.inl (refused_showHint_iff.mpr ⟨hfile, hhint⟩))⟩

theorem refused_of_spawned {parsed : Parsed Path} {timeout : Option Word} {w₀ w₁ : W}
    (hopen : Opened host parsed w w₀) (hspawned : Spawned host parsed.stages w₀ w₁)
    (h : (finish host parsed timeout).Refused w₁) : (runPipeline host parsed timeout).Refused w :=
  refused_bind.mpr (Or.inr ⟨(), w₀, hopen,
    refused_bind.mpr (Or.inr ⟨none, w₁, spawnAll_ok_iff.mpr hspawned, h⟩)⟩)

theorem runPipeline_refused_iff {parsed : Parsed Path} {timeout : Option Word} :
    (runPipeline host parsed timeout).Refused w ↔ PipelineRefused host parsed timeout w := by
  constructor
  · intro h
    rcases refused_bind.mp h with h | ⟨⟨⟩, w₀, hopen, h⟩
    · obtain ⟨file, hfile, h⟩ := refused_openSource_iff.mp h
      exact .input hfile h
    rcases refused_bind.mp h with h | ⟨missing, w₁, hspawn, h⟩
    · obtain ⟨front, stage, back, executable, w₁, hstages, hfront, hfind, h⟩ :=
        spawnAll_refused_iff.mp h
      exact .spawn hopen hstages hfront hfind h
    cases missing with
    | some name => exact absurd h (refused_pure _)
    | none =>
        have hspawned := spawnAll_ok_iff.mp hspawn
        rcases refused_finish_iff.mp h with h | ⟨collected, w₂, hcollect, h⟩
        · exact .collect hopen hspawned h
        rcases h with ⟨file, hfile, h⟩ | ⟨hfile, sink, hsink, hcode, h⟩
        · exact .write hopen hspawned hcollect hfile h
        · exact .hint hopen hspawned hcollect hfile hsink hcode h
  · intro h
    cases h with
    | input hfile h =>
        exact refused_bind.mpr (Or.inl (refused_openSource_iff.mpr ⟨_, hfile, h⟩))
    | spawn hopen hstages hfront hfind h =>
        have hspawn := spawnAll_refused_iff.mpr ⟨_, _, _, _, _, hstages, hfront, hfind, h⟩
        exact refused_bind.mpr (Or.inr ⟨(), _, hopen, refused_bind.mpr (Or.inl hspawn)⟩)
    | collect hopen hspawned h =>
        exact refused_of_spawned hopen hspawned (refused_finish_iff.mpr (Or.inl h))
    | write hopen hspawned hcollect hfile h =>
        exact refused_of_spawned hopen hspawned (refused_finish_iff.mpr
          (Or.inr ⟨_, _, hcollect, Or.inl ⟨_, hfile, h⟩⟩))
    | hint hopen hspawned hcollect hfile hsink hcode h =>
        exact refused_of_spawned hopen hspawned (refused_finish_iff.mpr
          (Or.inr ⟨_, _, hcollect, Or.inr ⟨hfile, _, hsink, hcode, h⟩⟩))

/-- A timeout is handled, and the `finally` block does not raise. -/
theorem execSubprocess_refused_iff {line : List Char} {timeout : Option Word} :
    (execSubprocess host line timeout).Refused w ↔ LineRefused host line timeout w := by
  rw [LineRefused, Op.Refused, execSubprocess]
  cases parse (fun word => host.path word w) line with
  | error failure =>
      cases failure with
      | raised e =>
          constructor
          · rintro ⟨e', h, hcaught⟩
            rwa [Except.error.inj h]
          · exact fun h => ⟨e, rfl, h⟩
      | rejected e =>
          constructor
          · rintro ⟨e', h, -⟩
            cases h
          · exact False.elim
  | ok parsed =>
      dsimp only
      rw [← runPipeline_refused_iff, Op.andFinally, Op.tryCatch]
      constructor
      · rintro ⟨e, h, hcaught⟩
        cases hrun : runPipeline host parsed timeout w with
        | mk result w' =>
            rw [hrun] at h
            cases result with
            | ok a => cases h
            | error e' =>
                refine ⟨e', by rw [hrun], ?_⟩
                cases e' with
                | timeoutExpired => cases h
                | osError | valueError => rfl
                | other =>
                    obtain rfl := Except.error.inj h
                    cases hcaught
      · rintro ⟨e, h, hcaught⟩
        refine ⟨e, ?_, hcaught⟩
        cases hrun : runPipeline host parsed timeout w with
        | mk result w' =>
            rw [hrun] at h
            obtain rfl : result = .error e := h
            cases e with
            | osError | valueError => rfl
            | timeoutExpired | other => cases hcaught

end Refusal

/-! ## Agreement -/

section Agreement

variable {W Path : Type} {host : Host W Path} {line : List Char} {timeout : Option Word} {w : W}

/-- The first word of the line is a dispatcher command, a built-in or an
external executable. -/
def IsCommand (host : Host W Path) (line : List Char) (w : W) : Prop :=
  ∃ command args, split (strip line) = .ok (command :: args) ∧
    (command ∈ commandNames ∨ isExternalCommand host command w = true)

/-- `execute_command` raises neither `OSError` nor `ValueError`, and it
does what `execute` does. -/
def Agrees (host : Host W Path) (line : List Char) (timeout : Option Word) (w : W) : Prop :=
  ¬(executeCommand host line timeout).Refused w ∧
    executeCommand host line timeout w = execute host line timeout w

/-- Both hand the line to the pipeline executor. -/
def IsPipeline (line : List Char) : Prop :=
  hasOperator (strip line) = true ∧
    ∀ parts, split (strip line) = .ok parts → unsupportedOperator parts = none

/-- No command reaches the end of the chain. -/
theorem dispatch_command {command : Word} {args : List Word} {a b : Op W Result}
    (h : command ∈ commandNames ∨ isExternalCommand host command w = true) :
    dispatch host command args line timeout a w = dispatch host command args line timeout b w := by
  unfold dispatch
  split_ifs with hbuiltin hlinux happ hpython hpackage
  · rfl
  · rfl
  · rfl
  · rfl
  · rfl
  · have hexternal : isExternalCommand host command w = true := by
      refine h.resolve_left fun hname => ?_
      simp only [commandNames, List.mem_append] at hname
      tauto
    have hlook : ∀ otherwise : Op W Result,
        (Op.look (isExternalCommand host command) >>= fun external =>
          if external = true then execSubprocess host line timeout else otherwise) w
          = execSubprocess host line timeout w := by
      intro otherwise
      show (if isExternalCommand host command w = true then execSubprocess host line timeout
        else otherwise) w = _
      rw [if_pos hexternal]
    exact (hlook a).trans (hlook b).symm

theorem not_refused_tryCatch {op : Op W Result} {command : Word} :
    ¬(op.tryCatch (showError command)).Refused w := by
  rintro ⟨e, h, hcaught⟩
  rw [Op.tryCatch] at h
  cases hop : op w with
  | mk result w' =>
      rw [hop] at h
      cases result with
      | ok a => cases h
      | error e' =>
          cases e' with
          | osError | valueError => cases h
          | timeoutExpired | other =>
              obtain rfl := Except.error.inj h
              cases hcaught

theorem tryCatch_of_not_refused {op : Op W Result} {command : Word} (h : ¬op.Refused w) :
    op.tryCatch (showError command) w = op w := by
  rw [Op.tryCatch]
  cases hop : op w with
  | mk result w' =>
      cases result with
      | ok a => rfl
      | error e =>
          have hnone : e.caught? = none := by
            refine Option.not_isSome_iff_eq_none.mp fun hsome => h ⟨e, ?_, hsome⟩
            rw [hop]
          dsimp only
          rw [showError, hnone]
          rfl

theorem strip_ne_nil {command : Word} {args : List Word}
    (hsplit : split (strip line) = .ok (command :: args)) : strip line ≠ [] := by
  intro hnil
  rw [hnil] at hsplit
  cases hsplit

/-- `true` and `false` are not commands. -/
theorem unsupportedAfterTrue_command {command : Word} {parts : List Word}
    (h : command ∈ commandNames ∨ isExternalCommand host command w = true) :
    unsupportedAfterTrue command parts = none := by
  refine if_neg fun htrue => ?_
  have hguard : ∀ word ∈ ["true".toList, "false".toList],
      word ∉ commandNames ∧ word ∈ pythonKeywordGuard := by decide
  obtain ⟨hname, hkeyword⟩ := hguard command htrue
  have hexternal := h.resolve_left hname
  rw [isExternalCommand, decide_eq_false (not_not_intro hkeyword), Bool.false_and] at hexternal
  cases hexternal

section Command

variable {command : Word} {args : List Word} (hsplit : split (strip line) = .ok (command :: args))
include hsplit

theorem executeCommand_eq : executeCommand host line timeout w =
    (match unsupportedOperator (command :: args) with
    | some rejection => pure rejection
    | none =>
      if hasOperator (strip line) then execSubprocess host (strip line) timeout
      else
        Op.tryCatch (dispatch host command args (strip line) timeout
          (otherwiseCommand command (strip line))) (showError command)) w := by
  rw [executeCommand, readLine, if_neg (strip_ne_nil hsplit), hsplit]

theorem execute_eq (h : command ∈ commandNames ∨ isExternalCommand host command w = true) :
    execute host line timeout w =
    (match unsupportedOperator (command :: args) with
    | some rejection => pure rejection
    | none =>
      Op.tryCatch
        (if hasOperator (strip line) then execSubprocess host (strip line) timeout
          else dispatch host command args (strip line) timeout
            (otherwiseExecute host command (strip line))) (showError command)) w := by
  have hguarded : (decide (command ∈ commandNames) || isExternalCommand host command w) = true := by
    rcases h with hname | hexternal
    · rw [decide_eq_true hname, Bool.true_or]
    · rw [hexternal, Bool.or_true]
  rw [execute, readLine, if_neg (strip_ne_nil hsplit), hsplit]
  show (match if (decide (command ∈ commandNames) || isExternalCommand host command w) = true then
    unsupportedOperator (command :: args) else none with
    | some rejection => _
    | none => _ : Op W Result) w = _
  rw [if_pos hguarded, unsupportedAfterTrue_command h]

end Command

/-- **Command mode.** On the line of a command the two agree precisely
when it is no pipeline that meets a refusal. -/
theorem agrees_iff (h : IsCommand host line w) : Agrees host line timeout w ↔
    ¬(IsPipeline line ∧ LineRefused host (strip line) timeout w) := by
  obtain ⟨command, args, hsplit, hcommand⟩ := h
  have hpipeline : IsPipeline line ↔ hasOperator (strip line) = true ∧
      unsupportedOperator (command :: args) = none := by
    refine and_congr_right fun _ => ⟨fun h => h _ hsplit, fun h parts hparts => ?_⟩
    obtain rfl := Except.ok.inj (hsplit.symm.trans hparts)
    exact h
  rw [Agrees, Op.Refused, executeCommand_eq hsplit, execute_eq hsplit hcommand, hpipeline]
  cases hrejection : unsupportedOperator (command :: args) with
  | some rejection =>
      refine ⟨fun _ h => (by cases h.1.2), fun _ => ⟨?_, rfl⟩⟩
      rintro ⟨e, h, -⟩
      cases h
  | none =>
      dsimp only
      by_cases hoperator : hasOperator (strip line) = true
      · rw [if_pos hoperator, if_pos hoperator, ← execSubprocess_refused_iff]
        constructor
        · exact fun h hrefused => h.1 hrefused.2
        · intro h
          have hnot : ¬(execSubprocess host (strip line) timeout).Refused w :=
            fun hrefused => h ⟨⟨hoperator, rfl⟩, hrefused⟩
          exact ⟨hnot, (tryCatch_of_not_refused hnot).symm⟩
      · rw [if_neg hoperator, if_neg hoperator]
        refine ⟨fun _ h => hoperator h.1.1, fun _ => ⟨not_refused_tryCatch, ?_⟩⟩
        rw [Op.tryCatch, Op.tryCatch, dispatch_command hcommand]

end Agreement

/-- A machine with the files of the world, where `cat` is installed. -/
def sampleHost : Host (List (Word × List Char)) Word where
  path word _ := .ok word
  findExecutable command _ := if command = "cat".toList then some "/system/bin/cat".toList else none
  builtin command _ := pure (if command = "pwd".toList then "/data\n".toList else [])
  execLinux _ _ _ := Op.raise .other
  execZmuxCommand _ _ := Op.raise .other
  execPythonCommand _ := Op.raise .other
  execPython _ _ := Op.raise .other
  strictHostCommands _ := false
  looksLikeCommand _ _ := false
  sink := none
  openInput file := fun w =>
    if file ∈ w.map Prod.fst then (.ok (), w)
    else (.error (.osError ("[Errno 2] No such file or directory: '".toList ++ file ++ ['\x27'])), w)
  spawn _ _ := pure ()
  collect _ := pure ⟨[], [], [0]⟩
  kill := id
  write file _ text := fun w => (.ok (), (file, text) :: w)
  cleanup := id

/-- The file to read is missing: `execute_command` raises, `execute` shows
the error. -/
theorem missing_file_raises :
    IsCommand sampleHost "cat < notes".toList [] ∧
      ¬Agrees sampleHost "cat < notes".toList none [] ∧
      (execute sampleHost "cat < notes".toList none []).1 = .ok
        ⟨[], "cat: [Errno 2] No such file or directory: 'notes'\n".toList, 1, false⟩ := by
  have hsplit : split (strip "cat < notes".toList)
      = .ok ("cat".toList :: ["<".toList, "notes".toList]) := by decide
  have hraises : (executeCommand sampleHost "cat < notes".toList none []).1
      = .error (.osError "[Errno 2] No such file or directory: 'notes'".toList) := by
    decide +kernel
  have hshown : (execute sampleHost "cat < notes".toList none []).1 = .ok
      ⟨[], "cat: [Errno 2] No such file or directory: 'notes'\n".toList, 1, false⟩ := by
    decide +kernel
  exact ⟨⟨_, _, hsplit, Or.inl (by decide +kernel)⟩, fun h => h.1 ⟨_, hraises, rfl⟩, hshown⟩

/-- The output of a file that is there goes to another one. -/
theorem redirect_agrees :
    IsPipeline "cat < notes > copy".toList ∧
      Agrees sampleHost "cat < notes > copy".toList none [("notes".toList, ['n'])] ∧
      (execute sampleHost "cat < notes > copy".toList none [("notes".toList, ['n'])]).2
        = [("copy".toList, []), ("notes".toList, ['n'])] := by
  have hsplit : split (strip "cat < notes > copy".toList)
      = .ok ("cat".toList :: ["<", "notes", ">", "copy"].map String.toList) := by decide
  have hcommand : IsCommand sampleHost "cat < notes > copy".toList [("notes".toList, ['n'])] :=
    ⟨_, _, hsplit, Or.inl (by decide +kernel)⟩
  have hpipeline : IsPipeline "cat < notes > copy".toList := by
    refine ⟨by decide, fun parts hparts => ?_⟩
    obtain rfl := Except.ok.inj (hsplit.symm.trans hparts)
    decide +kernel
  have hruns : (execSubprocess sampleHost (strip "cat < notes > copy".toList) none
      [("notes".toList, ['n'])]).1 = .ok ⟨[], [], 0, false⟩ := by
    decide +kernel
  refine ⟨hpipeline, (agrees_iff hcommand).mpr fun h => ?_, by decide +kernel⟩
  obtain ⟨e, he, -⟩ := execSubprocess_refused_iff.mpr h.2
  rw [hruns] at he
  cases he

end CommandMode

end Zmux
