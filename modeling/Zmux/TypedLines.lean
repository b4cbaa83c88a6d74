import Mathlib.Data.List.Count
import Mathlib.Data.List.Perm.Basic
import Zmux.Console
import Zmux.Runs

/-!
# Where a typed line goes

The lines a user types while the host console runs programs that read
them. The input thread puts a line on the stdin queue or takes it for a
command line (`_submit_line`), the worker runs the command lines
(`_exec_loop`), a program takes lines from the stdin queue
(`_QueueInput.readline`), and what it leaves over becomes command lines
(`_finish_command`). After a Ctrl+C the left-over lines are thrown away,
and `stop` ends the worker.

Every line is used once, whatever comes between (`typed_once`): it is read
by a program, run as a command line, kept by the console for itself, thrown
away or still under way, and programs read lines in the order in which they
were typed. As long as nothing is interrupted or stopped none is thrown
away, and none is left over where the puts are in time (`typed_used`).

`verdict` and `outcome` are those of `Zmux.Console`; the answers of the
system (`Host`) may be others at every step. A `KeyboardInterrupt` that is
injected into the worker arrives while it runs a line; one that arrives
between two statements of `_finish_command` is left out, and so are the
history and what is printed.
-/

namespace Zmux

/-- What runs under the lock of the session. -/
inductive LockPc where
  | idle
  /-- `_submit_line` has read the busy flag. -/
  | checked (line : Line) (busy : Bool)
  /-- `_interrupt_running` is about to read the busy flag. -/
  | pressed
  /-- At the start of `interrupt`. -/
  | interrupting (stopping : Bool)
  /-- The epoch is incremented. -/
  | counted (stopping : Bool)
  /-- At the end of `stop`. -/
  | stopping
deriving DecidableEq

/-- Where the worker is in `_exec_loop`. -/
inductive WorkPc where
  | waiting
  | got (item : Option Command)
  /-- The epoch is read. -/
  | snapped (command : Command) (epoch : ℕ)
  /-- Busy is set. -/
  | marked (command : Command) (epoch : ℕ)
  /-- The epoch was the same, the flag is not cleared yet. -/
  | matched (command : Command)
  /-- At the start of `_run_line`. -/
  | ready (command : Command)
  /-- In `execute`; `reading` is the program in `get` of the stdin queue. -/
  | running (source reading : Bool)
  /-- A line has been added to the open block, busy is not cleared yet. -/
  | extended
  /-- Source has run, the open block is not cleared yet. -/
  | executed
  /-- A `KeyboardInterrupt` is caught, the flag is not set yet. -/
  | caught
  /-- At the start of `_finish_command`. -/
  | finishing
  /-- It has read the flag. -/
  | judged (interrupted : Bool)
  /-- It has cleared busy. -/
  | cleared (interrupted : Bool)
  /-- In `_drain`. -/
  | draining (interrupted : Bool) (items : List Line)
  | resubmitting (leftovers : List Line)
  | ended
deriving DecidableEq

/-- `read`, `ran`, `kept` and `dropped` are ghosts: the lines that programs
have read, those the worker has started to run, those that were for the
console itself, and those thrown away. -/
structure TypedLines where
  isRunning : Bool
  busy : Bool
  interrupt : Bool
  epoch : ℕ
  /-- `None` is the poison pill of `stop`. -/
  commandQueue : List (Option Command)
  stdinQueue : List Line
  pythonLines : List Line
  mode : Mode
  awaitingAlpine : Bool
  startAlpineAfterCommand : Bool
  lock : LockPc
  worker : WorkPc
  typed : List Line
  read : List Line
  ran : List Command
  kept : List Line
  dropped : List Line

inductive TypedStep where
  /-- A line is complete, and `_submit_line` reads the busy flag. -/
  | type (line : Line)
  /-- The rest of `_submit_line`. -/
  | submit (host : Host)
  /-- Ctrl+C. -/
  | press
  | stop
  /-- The next step of Ctrl+C or of `stop`. -/
  | interrupt
  /-- The next step of the worker. -/
  | work (host : Host)
  /-- `readline` has found neither an interrupt nor a stopped session. -/
  | poll
  /-- `get` returns a line. -/
  | get
  /-- `get` finds none in time. -/
  | timeout
  /-- `execute` returns. -/
  | finish (host : Host)
  /-- `compile_command` or `execute` raises. -/
  | raises
  /-- A `KeyboardInterrupt` arrives. -/
  | interrupted

namespace TypedLines

def start (awaitingAlpine : Bool) : TypedLines where
  isRunning := true
  busy := false
  interrupt := false
  epoch := 0
  commandQueue := []
  stdinQueue := []
  pythonLines := []
  mode := .shell
  awaitingAlpine := awaitingAlpine
  startAlpineAfterCommand := false
  lock := .idle
  worker := .waiting
  typed := []
  read := []
  ran := []
  kept := []
  dropped := []

/-- `_enter_linux_pty`. -/
def enterLinuxPty (host : Host) (s : TypedLines) : TypedLines :=
  if s.isRunning = true ∧ s.busy = false ∧ host.alpineStarts s.ran = true then
    { s with mode := .shell }
  else s

def keep (s : TypedLines) (line : Line) : TypedLines := { s with kept := s.kept ++ [line] }

/-- `_submit_line` after the busy flag was found clear. -/
def handle (host : Host) (s : TypedLines) (line : Line) : TypedLines :=
  match verdict s.busy s.awaitingAlpine s.mode s.pythonLines line with
  | .ignore => s.keep line
  | .queue mode => { s with commandQueue := s.commandQueue ++ [some (line, mode)] }
  | .enterRepl => { s.keep line with mode := .repl }
  | .enterAlpine => (s.keep line).enterLinuxPty host
  | .leaveRepl => { s.keep line with mode := .shell, pythonLines := [] }

def defer (s : TypedLines) (line : Line) : TypedLines :=
  { s with stdinQueue := s.stdinQueue ++ [line] }

/-- `_submit_line`. -/
def submitLine (host : Host) (s : TypedLines) (line : Line) : TypedLines :=
  if s.busy then s.defer line else s.handle host line

/-- The end of `_execute_and_render`. -/
def rendered (host : Host) (s : TypedLines) : TypedLines :=
  if s.awaitingAlpine = true ∧ host.alpineInstalled s.ran = true then
    { s with awaitingAlpine := false, startAlpineAfterCommand := true }
  else s

/-- The start of `_run_line`. -/
def runLine (host : Host) (s : TypedLines) (command : Command) : TypedLines :=
  let s' := { s with ran := s.ran ++ [command] }
  match outcome host s.ran s.pythonLines command with
  | .block => { s' with pythonLines := s.pythonLines ++ [command.1], worker := .extended }
  | .command => { s' with worker := .running false false }
  | .source => { s' with worker := .running true false }

/-- The next step of the worker; `none` while it waits for a command line
or for what it runs. -/
def work (host : Host) (s : TypedLines) : Option TypedLines :=
  match s.worker with
  | .waiting =>
    match s.commandQueue with
    | [] => none
    | item :: rest => some { s with commandQueue := rest, worker := .got item }
  | .got none => some { s with worker := .ended }
  | .got (some command) =>
    if s.isRunning then some { s with worker := .snapped command s.epoch }
    else some { s with worker := .ended, dropped := s.dropped ++ [command.1] }
  | .snapped command epoch => some { s with busy := true, worker := .marked command epoch }
  | .marked command epoch =>
    some { s with worker := if epoch = s.epoch then .matched command else .ready command }
  | .matched command => some { s with interrupt := false, worker := .ready command }
  | .ready command => some (s.runLine host command)
  | .running _ _ => none
  | .extended => some { s with busy := false, worker := .finishing }
  | .executed => some { s with pythonLines := [], worker := .finishing }
  | .caught => some { s with interrupt := true, worker := .finishing }
  | .finishing => some { s with worker := .judged s.interrupt }
  | .judged interrupted => some { s with busy := false, worker := .cleared interrupted }
  | .cleared interrupted =>
    if interrupted = false ∧ s.startAlpineAfterCommand = true then
      some ({ s with startAlpineAfterCommand := false, worker := .waiting }.enterLinuxPty host)
    else some { s with worker := .draining interrupted [] }
  | .draining interrupted items =>
    match s.stdinQueue with
    | line :: rest =>
      some { s with stdinQueue := rest, worker := .draining interrupted (items ++ [line]) }
    | [] =>
      if interrupted then
        some { s with interrupt := false, worker := .waiting, dropped := s.dropped ++ items }
      else some { s with worker := .resubmitting items }
  | .resubmitting (line :: leftovers) =>
    some { s.submitLine host line with worker := .resubmitting leftovers }
  | .resubmitting [] => some { s with worker := .waiting }
  | .ended => none

def step (s : TypedLines) : TypedStep → Option TypedLines
  | .type line =>
    match s.lock with
    | .idle =>
      if s.isRunning then some { s with lock := .checked line s.busy, typed := s.typed ++ [line] }
      else none
    | _ => none
  | .submit host =>
    match s.lock with
    | .checked line true => some { s.defer line with lock := .idle }
    | .checked line false => some { s.handle host line with lock := .idle }
    | _ => none
  | .press =>
    match s.lock with
    | .idle => if s.isRunning then some { s with pythonLines := [], lock := .pressed } else none
    | _ => none
  | .stop =>
    match s.lock with
    | .idle => some { s with isRunning := false, pythonLines := [], lock := .interrupting true }
    | _ => none
  | .interrupt =>
    match s.lock with
    | .pressed => some { s with lock := if s.busy then .interrupting false else .idle }
    | .interrupting stopping => some { s with epoch := s.epoch + 1, lock := .counted stopping }
    | .counted stopping =>
      some { s with interrupt := true, lock := if stopping then .stopping else .idle }
    | .stopping => some { s with commandQueue := s.commandQueue ++ [none], lock := .idle }
    | _ => none
  | .work host => s.work host
  | .poll =>
    match s.worker with
    | .running source false =>
      if s.interrupt = false ∧ s.isRunning = true then
        some { s with worker := .running source true }
      else none
    | _ => none
  | .get =>
    match s.worker, s.stdinQueue with
    | .running source true, line :: rest =>
      some { s with stdinQueue := rest, read := s.read ++ [line], worker := .running source false }
    | _, _ => none
  | .timeout =>
    match s.worker, s.stdinQueue with
    | .running source true, [] => some { s with worker := .running source false }
    | _, _ => none
  | .finish host =>
    match s.worker with
    | .running source false =>
      some { s.rendered host with worker := if source then .executed else .finishing }
    | _ => none
  | .raises =>
    match s.worker with
    | .ready command => some { s with ran := s.ran ++ [command], worker := .finishing }
    | .running _ false => some { s with worker := .finishing }
    | _ => none
  | .interrupted =>
    match s.worker with
    | .ready command => some { s with ran := s.ran ++ [command], worker := .caught }
    | .running _ _ | .extended | .executed => some { s with worker := .caught }
    | _ => none

end TypedLines

/-! ## The lines of a state -/

def LockPc.lines : LockPc → List Line
  | .checked line _ => [line]
  | _ => []

def WorkPc.lines : WorkPc → List Line
  | .got (some command) | .snapped command _ | .marked command _ | .matched command
  | .ready command => [command.1]
  | .draining _ items => items
  | .resubmitting leftovers => leftovers
  | _ => []

namespace TypedLines

/-- The lines on the command queue. -/
def queuedLines (queue : List (Option Command)) : List Line :=
  queue.filterMap fun item => item.map Prod.fst

/-- The lines that are still under way. -/
def pending (s : TypedLines) : List Line :=
  s.lock.lines ++ s.stdinQueue ++ queuedLines s.commandQueue ++ s.worker.lines

/-- What has become of the others. -/
def used (s : TypedLines) : List Line := s.read ++ s.ran.map Prod.fst ++ s.kept ++ s.dropped

variable {s s' : TypedLines} {host : Host}

@[simp] theorem queuedLines_none (rest : List (Option Command)) :
    queuedLines (none :: rest) = queuedLines rest := rfl

@[simp] theorem queuedLines_some (command : Command) (rest : List (Option Command)) :
    queuedLines (some command :: rest) = command.1 :: queuedLines rest := rfl

@[simp] theorem queuedLines_append (queue queue' : List (Option Command)) :
    queuedLines (queue ++ queue') = queuedLines queue ++ queuedLines queue' :=
  List.filterMap_append ..

@[simp] theorem queuedLines_nil : queuedLines [] = [] := rfl

theorem enterLinuxPty_spec (host : Host) (s : TypedLines) :
    ∃ mode, s.enterLinuxPty host = { s with mode := mode } := by
  unfold enterLinuxPty
  split
  · exact ⟨_, rfl⟩
  · exact ⟨_, rfl⟩

theorem rendered_spec (host : Host) (s : TypedLines) :
    ∃ awaitingAlpine startAlpineAfterCommand, s.rendered host = { s with
      awaitingAlpine := awaitingAlpine, startAlpineAfterCommand := startAlpineAfterCommand } := by
  unfold rendered
  split
  · exact ⟨_, _, rfl⟩
  · exact ⟨_, _, rfl⟩

/-- A line that `_submit_line` takes for itself is queued or kept. -/
theorem handle_spec (host : Host) (s : TypedLines) (line : Line) :
    ∃ queue kept mode pythonLines,
      s.handle host line = { s with
        commandQueue := queue, kept := kept, mode := mode, pythonLines := pythonLines } ∧
      (∀ l, (queuedLines queue).count l + kept.count l
        = (queuedLines s.commandQueue).count l + s.kept.count l + [line].count l) ∧
      (none ∈ queue → none ∈ s.commandQueue) := by
  have hkept (l : Line) : (queuedLines s.commandQueue).count l + (s.kept ++ [line]).count l
      = (queuedLines s.commandQueue).count l + s.kept.count l + [line].count l := by
    rw [List.count_append, Nat.add_assoc]
  unfold handle
  split
  · exact ⟨_, _, _, _, rfl, hkept, id⟩
  · refine ⟨_, _, _, _, rfl, fun l => ?_, by simp⟩
    simp only [queuedLines_append, queuedLines_some, queuedLines_nil, List.count_append]
    omega
  · exact ⟨_, _, _, _, rfl, hkept, id⟩
  · obtain ⟨mode, henter⟩ := enterLinuxPty_spec host (s.keep line)
    rw [henter]
    exact ⟨_, _, _, _, rfl, hkept, id⟩
  · exact ⟨_, _, _, _, rfl, hkept, id⟩

end TypedLines

/-! ## Every line once -/

/-- Busy may be set. -/
def WorkPc.working : WorkPc → Bool
  | .marked _ _ | .matched _ | .ready _ | .running _ _ | .extended | .executed | .caught
  | .finishing | .judged _ => true
  | _ => false

namespace TypedLines

variable {s s' : TypedLines} {host : Host}

/-- The ledger of the lines. -/
structure Accounts (s : TypedLines) : Prop where
  busy : s.busy = true → s.worker.working = true
  once : ∀ l, s.typed.count l = s.used.count l + s.pending.count l
  /-- `taken` are the lines that have left the stdin queue. -/
  order : ∃ taken, s.read.Sublist taken ∧
    (taken ++ s.stdinQueue ++ s.lock.lines).Sublist s.typed

theorem accounts_start (awaitingAlpine : Bool) : Accounts (start awaitingAlpine) where
  busy h := by cases h
  once _ := rfl
  order := ⟨[], .slnil, .slnil⟩

theorem Accounts.idle (h : Accounts s) (hworker : s.worker.working = false) : s.busy = false := by
  by_contra hbusy
  have hworking := h.busy (by simpa using hbusy)
  cases hworker.symm.trans hworking

/-- What the ledger has of a line, apart from the lines that were read and
those on the stdin queue. -/
def entries (s : TypedLines) (l : Line) : ℕ :=
  (s.ran.map Prod.fst).count l + s.kept.count l + s.dropped.count l
    + (queuedLines s.commandQueue).count l + s.worker.lines.count l

theorem count_ledger (s : TypedLines) (l : Line) : s.used.count l + s.pending.count l
    = s.read.count l + s.stdinQueue.count l + s.lock.lines.count l + s.entries l := by
  simp only [used, pending, entries, List.count_append]
  omega

/-- A step that leaves the stdin queue alone. -/
theorem Accounts.move (h : Accounts s) (htyped : s'.typed = s.typed) (hread : s'.read = s.read)
    (hstdin : s'.stdinQueue = s.stdinQueue) (hlock : s'.lock.lines = s.lock.lines)
    (hbusy : s'.busy = true → s'.worker.working = true)
    (hentries : ∀ l, s'.entries l = s.entries l) : Accounts s' where
  busy := hbusy
  once l := by rw [count_ledger, hread, hstdin, hlock, hentries, ← count_ledger, htyped, h.once]
  order := by rw [htyped, hread, hstdin, hlock]; exact h.order

/-- The worker goes on with the lines that it has. -/
theorem Accounts.onward (h : Accounts s)
    (hsame : s' = { s' with
      commandQueue := s.commandQueue, stdinQueue := s.stdinQueue, lock := s.lock
      typed := s.typed, read := s.read, ran := s.ran, kept := s.kept, dropped := s.dropped })
    (hlines : s'.worker.lines = s.worker.lines)
    (hbusy : s'.busy = true → s'.worker.working = true) : Accounts s' := by
  rw [hsame]
  refine h.move rfl rfl rfl rfl hbusy fun l => ?_
  rw [entries, hlines, entries]

/-- The worker has begun with its command line. -/
theorem Accounts.begun (h : Accounts s) {command : Command} (hworker : s.worker = .ready command)
    (hsame : s' = { s' with
      commandQueue := s.commandQueue, stdinQueue := s.stdinQueue, lock := s.lock
      typed := s.typed, read := s.read, ran := s.ran ++ [command], kept := s.kept
      dropped := s.dropped })
    (hlines : s'.worker.lines = []) (hworking : s'.worker.working = true) : Accounts s' := by
  rw [hsame]
  refine h.move rfl rfl rfl rfl (fun _ => hworking) fun l => ?_
  have hhad : s.worker.lines = [command.1] := by rw [hworker]; rfl
  simp only [entries, hlines, hhad, List.map_append, List.map_cons, List.map_nil,
    List.count_append, List.count_nil]
  omega

/-- What goes on under the lock, but for the lines. -/
theorem Accounts.locked (h : Accounts s) (htyped : s'.typed = s.typed) (hread : s'.read = s.read)
    (hstdin : s'.stdinQueue = s.stdinQueue) (hlock : s'.lock.lines = s.lock.lines)
    (hbusy : s'.busy = s.busy) (hworker : s'.worker = s.worker)
    (hentries : ∀ l, s'.entries l = s.entries l) : Accounts s' :=
  h.move htyped hread hstdin hlock (by rw [hbusy, hworker]; exact h.busy) hentries

theorem accounts_type (h : Accounts s) {line : Line} (hstep : step s (.type line) = some s') :
    Accounts s' := by
  rw [step] at hstep
  split at hstep
  · rename_i hlock
    split at hstep
    · obtain rfl := Option.some.inj hstep
      obtain ⟨taken, hread, htyped⟩ := h.order
      have hnone : s.lock.lines = [] := by rw [hlock]; rfl
      refine ⟨h.busy, fun l => ?_, taken, hread, ?_⟩
      · have honce := h.once l
        rw [count_ledger, hnone, List.count_nil] at honce
        rw [count_ledger, List.count_append, honce]
        simp only [entries, LockPc.lines]
        omega
      · rw [hnone, List.append_nil] at htyped
        exact htyped.append (.refl _)
    · cases hstep
  · cases hstep

/-- `_submit_line` by the input thread, once it has the line. -/
theorem accounts_submit (h : Accounts s) (hstep : step s (.submit host) = some s') :
    Accounts s' := by
  rw [step] at hstep
  split at hstep
  · rename_i line hlock
    obtain rfl := Option.some.inj hstep
    obtain ⟨taken, hread, htyped⟩ := h.order
    refine ⟨h.busy, fun l => ?_, taken, hread, ?_⟩
    · have honce := h.once l
      rw [count_ledger, hlock] at honce
      rw [count_ledger]
      simp only [defer, entries, LockPc.lines, List.count_append, List.count_nil] at honce ⊢
      omega
    · rw [hlock] at htyped
      simpa [defer, LockPc.lines] using htyped
  · rename_i line hlock
    obtain rfl := Option.some.inj hstep
    obtain ⟨queue, kept, mode, pythonLines, hhandle, hcount, -⟩ := handle_spec host s line
    obtain ⟨taken, hread, htyped⟩ := h.order
    rw [hhandle]
    refine ⟨h.busy, fun l => ?_, taken, hread, ?_⟩
    · have honce := h.once l
      rw [count_ledger, hlock] at honce
      rw [count_ledger]
      have hmoved := hcount l
      simp only [entries, LockPc.lines, List.count_nil] at honce ⊢
      omega
    · rw [hlock] at htyped
      exact (List.sublist_append_left ..).trans (by simpa [LockPc.lines] using htyped)
  · cases hstep

/-- Ctrl+C and `stop`. -/
theorem accounts_lock (h : Accounts s) {a : TypedStep}
    (ha : a = .press ∨ a = .stop ∨ a = .interrupt) (hstep : step s a = some s') :
    Accounts s' := by
  rcases ha with rfl | rfl | rfl
  · rw [step] at hstep
    split at hstep
    · rename_i hlock
      split at hstep
      · obtain rfl := Option.some.inj hstep
        exact h.locked rfl rfl rfl (by rw [hlock]; rfl) rfl rfl fun _ => rfl
      · cases hstep
    · cases hstep
  · rw [step] at hstep
    split at hstep
    · rename_i hlock
      obtain rfl := Option.some.inj hstep
      exact h.locked rfl rfl rfl (by rw [hlock]; rfl) rfl rfl fun _ => rfl
    · cases hstep
  · rw [step] at hstep
    split at hstep
    · rename_i hlock
      obtain rfl := Option.some.inj hstep
      refine h.locked rfl rfl rfl ?_ rfl rfl fun _ => rfl
      rw [hlock]
      split <;> rfl
    · rename_i hlock
      obtain rfl := Option.some.inj hstep
      exact h.locked rfl rfl rfl (by rw [hlock]; rfl) rfl rfl fun _ => rfl
    · rename_i hlock
      obtain rfl := Option.some.inj hstep
      refine h.locked rfl rfl rfl ?_ rfl rfl fun _ => rfl
      rw [hlock]
      split <;> rfl
    · rename_i hlock
      obtain rfl := Option.some.inj hstep
      refine h.locked rfl rfl rfl (by rw [hlock]; rfl) rfl rfl fun l => ?_
      simp [entries]
    · cases hstep

/-- `readline`. -/
theorem accounts_reading (h : Accounts s) {a : TypedStep}
    (ha : a = .poll ∨ a = .get ∨ a = .timeout) (hstep : step s a = some s') : Accounts s' := by
  rcases ha with rfl | rfl | rfl
  · rw [step] at hstep
    split at hstep
    · rename_i hworker
      split at hstep
      · obtain rfl := Option.some.inj hstep
        exact h.onward rfl (by rw [hworker]; rfl) fun _ => rfl
      · cases hstep
    · cases hstep
  · rw [step] at hstep
    split at hstep
    · rename_i source line rest hworker hstdin
      obtain rfl := Option.some.inj hstep
      obtain ⟨taken, hread, htyped⟩ := h.order
      refine ⟨fun _ => rfl, fun l => ?_, taken ++ [line], hread.append (.refl _), ?_⟩
      · have honce := h.once l
        rw [count_ledger, hstdin] at honce
        rw [count_ledger]
        simp only [entries, hworker, WorkPc.lines, List.count_append, List.count_cons,
          List.count_nil] at honce ⊢
        omega
      · rw [hstdin] at htyped
        simpa using htyped
    · cases hstep
  · rw [step] at hstep
    split at hstep
    · rename_i hworker hstdin
      obtain rfl := Option.some.inj hstep
      exact h.onward rfl (by rw [hworker]; rfl) fun _ => rfl
    · cases hstep

theorem accounts_finish (h : Accounts s) (hstep : step s (.finish host) = some s') :
    Accounts s' := by
  rw [step] at hstep
  split at hstep
  · rename_i source hworker
    obtain rfl := Option.some.inj hstep
    obtain ⟨awaitingAlpine, startAlpineAfterCommand, hrendered⟩ := rendered_spec host s
    rw [hrendered]
    refine h.move rfl rfl rfl rfl (fun _ => ?_) fun l => ?_
    · dsimp only
      split <;> rfl
    · cases source <;> simp [entries, hworker, WorkPc.lines]
  · cases hstep

/-- An exception may end a line that the worker has not begun with. -/
theorem accounts_raised (h : Accounts s) {a : TypedStep} (ha : a = .raises ∨ a = .interrupted)
    (hstep : step s a = some s') : Accounts s' := by
  rcases ha with rfl | rfl
  · rw [step] at hstep
    split at hstep
    · rename_i command hworker
      obtain rfl := Option.some.inj hstep
      exact h.begun hworker rfl rfl rfl
    · rename_i hworker
      obtain rfl := Option.some.inj hstep
      exact h.onward rfl (by rw [hworker]; rfl) fun _ => rfl
    · cases hstep
  · rw [step] at hstep
    split at hstep
    · rename_i command hworker
      obtain rfl := Option.some.inj hstep
      exact h.begun hworker rfl rfl rfl
    · rename_i hworker
      obtain rfl := Option.some.inj hstep
      exact h.onward rfl (by rw [hworker]; rfl) fun _ => rfl
    · rename_i hworker
      obtain rfl := Option.some.inj hstep
      exact h.onward rfl (by rw [hworker]; rfl) fun _ => rfl
    · rename_i hworker
      obtain rfl := Option.some.inj hstep
      exact h.onward rfl (by rw [hworker]; rfl) fun _ => rfl
    · cases hstep

/-- `_run_line` has the line in the one way or the other. -/
theorem accounts_runLine (h : Accounts s) {command : Command}
    (hworker : s.worker = .ready command) : Accounts (s.runLine host command) := by
  unfold runLine
  dsimp only
  split
  · exact h.begun hworker rfl rfl rfl
  · exact h.begun hworker rfl rfl rfl
  · exact h.begun hworker rfl rfl rfl

/-- `_drain` takes a line. -/
theorem accounts_drain (h : Accounts s) {interrupted : Bool} {items : List Line} {line : Line}
    {rest : List Line} (hworker : s.worker = .draining interrupted items)
    (hstdin : s.stdinQueue = line :: rest) :
    Accounts { s with stdinQueue := rest, worker := .draining interrupted (items ++ [line]) } := by
  obtain ⟨taken, hread, htyped⟩ := h.order
  refine ⟨fun hbusy => ?_, fun l => ?_, taken ++ [line], ?_, ?_⟩
  · cases (h.idle (by rw [hworker]; rfl)).symm.trans hbusy
  · have honce := h.once l
    rw [count_ledger, hstdin] at honce
    rw [count_ledger]
    simp only [entries, hworker, WorkPc.lines, List.count_append, List.count_cons,
      List.count_nil] at honce ⊢
    omega
  · exact hread.trans (List.sublist_append_left ..)
  · rw [hstdin] at htyped
    simpa using htyped

/-- A left-over line is submitted: the worker has cleared busy, so it does
not come back to the stdin queue. -/
theorem accounts_resubmit (h : Accounts s) {line : Line} {leftovers : List Line}
    (hworker : s.worker = .resubmitting (line :: leftovers)) :
    Accounts { s.submitLine host line with worker := .resubmitting leftovers } := by
  have hidle : s.busy = false := h.idle (by rw [hworker]; rfl)
  obtain ⟨queue, kept, mode, pythonLines, hhandle, hcount, -⟩ := handle_spec host s line
  rw [submitLine, hidle, if_neg Bool.false_ne_true, hhandle]
  refine h.move rfl rfl rfl rfl (fun hbusy => ?_) fun l => ?_
  · cases hidle.symm.trans hbusy
  · have hmoved := hcount l
    simp only [entries, hworker, WorkPc.lines, List.count_cons, List.count_nil] at hmoved ⊢
    omega

theorem accounts_work (h : Accounts s) (hstep : step s (.work host) = some s') :
    Accounts s' := by
  rw [step, work] at hstep
  have hclear (hworker : s.worker.working = false) (hbusy : s.busy = true) : False :=
    Bool.false_ne_true ((h.idle hworker).symm.trans hbusy)
  split at hstep
  · rename_i hworker
    split at hstep
    · cases hstep
    · rename_i item rest hqueue
      obtain rfl := Option.some.inj hstep
      refine h.move rfl rfl rfl rfl (fun hbusy => (hclear (by rw [hworker]; rfl) hbusy).elim)
        fun l => ?_
      cases item with
      | none => simp [entries, hworker, hqueue, WorkPc.lines]
      | some command =>
          simp only [entries, hworker, hqueue, WorkPc.lines, queuedLines_some, List.count_cons,
            List.count_nil]
          omega
  · rename_i hworker
    obtain rfl := Option.some.inj hstep
    exact h.onward rfl (by rw [hworker]; rfl)
      fun hbusy => (hclear (by rw [hworker]; rfl) hbusy).elim
  · rename_i command hworker
    split at hstep
    · obtain rfl := Option.some.inj hstep
      exact h.onward rfl (by rw [hworker]; rfl)
        fun hbusy => (hclear (by rw [hworker]; rfl) hbusy).elim
    · obtain rfl := Option.some.inj hstep
      refine h.move rfl rfl rfl rfl (fun hbusy => (hclear (by rw [hworker]; rfl) hbusy).elim)
        fun l => ?_
      simp [entries, hworker, WorkPc.lines]
      omega
  · rename_i command epoch hworker
    obtain rfl := Option.some.inj hstep
    exact h.onward rfl (by rw [hworker]; rfl) fun _ => rfl
  · rename_i command epoch hworker
    obtain rfl := Option.some.inj hstep
    refine h.move rfl rfl rfl rfl (fun _ => ?_) fun l => ?_
    · dsimp only
      split <;> rfl
    · dsimp only [entries]
      split <;> simp [hworker, WorkPc.lines]
  · rename_i command hworker
    obtain rfl := Option.some.inj hstep
    exact h.onward rfl (by rw [hworker]; rfl) fun _ => rfl
  · rename_i command hworker
    obtain rfl := Option.some.inj hstep
    exact accounts_runLine h hworker
  · cases hstep
  · rename_i hworker
    obtain rfl := Option.some.inj hstep
    exact h.onward rfl (by rw [hworker]; rfl) fun _ => rfl
  · rename_i hworker
    obtain rfl := Option.some.inj hstep
    exact h.onward rfl (by rw [hworker]; rfl) fun _ => rfl
  · rename_i hworker
    obtain rfl := Option.some.inj hstep
    exact h.onward rfl (by rw [hworker]; rfl) fun _ => rfl
  · rename_i hworker
    obtain rfl := Option.some.inj hstep
    exact h.onward rfl (by rw [hworker]; rfl) fun _ => rfl
  · rename_i interrupted hworker
    obtain rfl := Option.some.inj hstep
    exact h.onward rfl (by rw [hworker]; rfl) fun hbusy => by cases hbusy
  · rename_i interrupted hworker
    have hidle (hbusy : s.busy = true) : False := hclear (by rw [hworker]; rfl) hbusy
    split at hstep
    · obtain rfl := Option.some.inj hstep
      obtain ⟨mode, henter⟩ := enterLinuxPty_spec host
        { s with startAlpineAfterCommand := false, worker := .waiting }
      rw [henter]
      exact h.onward rfl (by rw [hworker]; rfl) fun hbusy => (hidle hbusy).elim
    · obtain rfl := Option.some.inj hstep
      exact h.onward rfl (by rw [hworker]; rfl) fun hbusy => (hidle hbusy).elim
  · rename_i interrupted items hworker
    split at hstep
    · rename_i line rest hstdin
      obtain rfl := Option.some.inj hstep
      exact accounts_drain h hworker hstdin
    · have hidle (hbusy : s.busy = true) : False := hclear (by rw [hworker]; rfl) hbusy
      split at hstep
      · obtain rfl := Option.some.inj hstep
        refine h.move rfl rfl rfl rfl (fun hbusy => (hidle hbusy).elim) fun l => ?_
        simp [entries, hworker, WorkPc.lines]
        omega
      · obtain rfl := Option.some.inj hstep
        exact h.onward rfl (by rw [hworker]; rfl) fun hbusy => (hidle hbusy).elim
  · rename_i line leftovers hworker
    obtain rfl := Option.some.inj hstep
    exact accounts_resubmit h hworker
  · rename_i hworker
    obtain rfl := Option.some.inj hstep
    exact h.onward rfl (by rw [hworker]; rfl)
      fun hbusy => (hclear (by rw [hworker]; rfl) hbusy).elim
  · cases hstep

theorem accounts_step (h : Accounts s) {a : TypedStep} (hstep : step s a = some s') :
    Accounts s' := by
  cases a with
  | type line => exact accounts_type h hstep
  | submit host => exact accounts_submit h hstep
  | press => exact accounts_lock h (.inl rfl) hstep
  | stop => exact accounts_lock h (.inr (.inl rfl)) hstep
  | interrupt => exact accounts_lock h (.inr (.inr rfl)) hstep
  | work host => exact accounts_work h hstep
  | poll => exact accounts_reading h (.inl rfl) hstep
  | get => exact accounts_reading h (.inr (.inl rfl)) hstep
  | timeout => exact accounts_reading h (.inr (.inr rfl)) hstep
  | finish host => exact accounts_finish h hstep
  | raises => exact accounts_raised h (.inl rfl) hstep
  | interrupted => exact accounts_raised h (.inr rfl) hstep

theorem accounts_of_reach {awaitingAlpine : Bool} {ok : TypedLines → TypedStep → Prop}
    (h : Reach step ok (start awaitingAlpine) s) : Accounts s :=
  h.invariant Accounts (accounts_start awaitingAlpine) fun _ _ _ hs _ hstep =>
    accounts_step hs hstep

end TypedLines

/-! ## Without a Ctrl+C -/

/-- The line is for the program that runs. -/
def LockPc.defers : LockPc → Bool
  | .checked _ true => true
  | _ => false

/-- The stdin queue has yet to be drained. -/
def WorkPc.drains : WorkPc → Bool
  | .marked _ _ | .matched _ | .ready _ | .running _ _ | .extended | .executed | .finishing
  | .judged _ | .cleared _ | .draining _ _ => true
  | _ => false

/-- Alpine is to start, and the stdin queue will not be drained. -/
def WorkPc.leaves : WorkPc → Bool
  | .cleared _ => true
  | _ => false

def LockPc.calm : LockPc → Bool
  | .idle | .checked _ _ => true
  | _ => false

/-- A program reads, or ends. -/
def TypedStep.isProgram : TypedStep → Bool
  | .poll | .get | .timeout | .finish _ | .raises => true
  | _ => false

/-- Nothing has been interrupted or stopped. -/
def WorkPc.calm : WorkPc → Bool
  | .got none | .caught | .judged true | .cleared true | .draining true _ | .ended => false
  | _ => true

namespace TypedLines

variable {s s' : TypedLines} {host : Host}

/-- Nothing is interrupted or stopped. -/
def Undisturbed (_ : TypedLines) : TypedStep → Prop
  | .press | .stop | .interrupted => False
  | _ => True

/-- Nothing is interrupted or stopped, a line for the running program is
put before the stdin queue is drained, and Alpine does not start with lines
on that queue. -/
def InTime (s : TypedLines) : TypedStep → Prop
  | .press | .stop | .interrupted => False
  | .submit _ => s.lock.defers = true → s.worker.drains = true
  | .work _ => s.worker.leaves = true → s.startAlpineAfterCommand = false ∨ s.stdinQueue = []
  | _ => True

theorem undisturbed_of_inTime {a : TypedStep} (h : InTime s a) : Undisturbed s a := by
  cases a with
  | press | stop | interrupted => exact h
  | _ => trivial

structure Calm (s : TypedLines) : Prop where
  isRunning : s.isRunning = true
  interrupt : s.interrupt = false
  dropped : s.dropped = []
  queue : none ∉ s.commandQueue
  lock : s.lock.calm = true
  worker : s.worker.calm = true

theorem calm_start (awaitingAlpine : Bool) : Calm (start awaitingAlpine) :=
  ⟨rfl, rfl, rfl, List.not_mem_nil, rfl, rfl⟩

/-- Only the worker has moved. -/
theorem Calm.move (h : Calm s) (hisRunning : s'.isRunning = s.isRunning)
    (hinterrupt : s'.interrupt = false) (hdropped : s'.dropped = s.dropped)
    (hqueue : ∀ item ∈ s'.commandQueue, item ∈ s.commandQueue) (hlock : s'.lock = s.lock)
    (hworker : s'.worker.calm = true) : Calm s' :=
  ⟨hisRunning.trans h.isRunning, hinterrupt, hdropped.trans h.dropped,
    fun hnone => h.queue (hqueue _ hnone), by rw [hlock]; exact h.lock, hworker⟩

/-- The worker goes on. -/
theorem Calm.onward (h : Calm s)
    (hsame : s' = { s' with
      isRunning := s.isRunning, interrupt := s.interrupt, commandQueue := s.commandQueue
      lock := s.lock, dropped := s.dropped })
    (hcalm : s'.worker.calm = true) : Calm s' := by
  rw [hsame]
  exact h.move rfl h.interrupt rfl (fun _ h => h) rfl hcalm

/-- Of a Ctrl+C or a `stop` nothing is left to do. -/
theorem interrupt_of_calm (hcalm : s.lock.calm = true) : step s .interrupt = none := by
  rw [step]
  cases hlock : s.lock with
  | idle => rfl
  | checked line busy => rfl
  | pressed => rw [hlock] at hcalm; cases hcalm
  | interrupting stopping => rw [hlock] at hcalm; cases hcalm
  | counted stopping => rw [hlock] at hcalm; cases hcalm
  | stopping => rw [hlock] at hcalm; cases hcalm

theorem calm_submit (h : Calm s) (hstep : step s (.submit host) = some s') : Calm s' := by
  rw [step] at hstep
  split at hstep
  · obtain rfl := Option.some.inj hstep
    exact ⟨h.isRunning, h.interrupt, h.dropped, h.queue, rfl, h.worker⟩
  · rename_i line hlock
    obtain rfl := Option.some.inj hstep
    obtain ⟨queue, kept, mode, pythonLines, hhandle, -, hqueue⟩ := handle_spec host s line
    rw [hhandle]
    exact ⟨h.isRunning, h.interrupt, h.dropped, fun hnone => h.queue (hqueue hnone), rfl, h.worker⟩
  · cases hstep

theorem calm_work (h : Calm s) (haccounts : Accounts s)
    (hstep : step s (.work host) = some s') : Calm s' := by
  have hcalm := h.worker
  rw [step, work] at hstep
  split at hstep
  · split at hstep
    · cases hstep
    · rename_i item rest hqueue
      obtain rfl := Option.some.inj hstep
      have hnone := h.queue
      rw [hqueue] at hnone
      refine h.move rfl h.interrupt rfl (fun other hother => ?_) rfl ?_
      · rw [hqueue]
        exact List.mem_cons_of_mem _ hother
      · cases item with
        | none => exact absurd (List.mem_cons_self ..) hnone
        | some command => rfl
  · rename_i hworker
    rw [hworker] at hcalm
    cases hcalm
  · rw [if_pos h.isRunning] at hstep
    obtain rfl := Option.some.inj hstep
    exact h.onward rfl rfl
  · obtain rfl := Option.some.inj hstep
    exact h.onward rfl rfl
  · obtain rfl := Option.some.inj hstep
    refine h.onward rfl ?_
    dsimp only
    split <;> rfl
  · obtain rfl := Option.some.inj hstep
    exact h.move rfl rfl rfl (fun _ h => h) rfl rfl
  · obtain rfl := Option.some.inj hstep
    unfold runLine
    dsimp only
    split
    · exact h.onward rfl rfl
    · exact h.onward rfl rfl
    · exact h.onward rfl rfl
  · cases hstep
  · obtain rfl := Option.some.inj hstep
    exact h.onward rfl rfl
  · obtain rfl := Option.some.inj hstep
    exact h.onward rfl rfl
  · rename_i hworker
    rw [hworker] at hcalm
    cases hcalm
  · obtain rfl := Option.some.inj hstep
    refine h.onward rfl ?_
    rw [h.interrupt]
    rfl
  · rename_i interrupted hworker
    obtain rfl := Option.some.inj hstep
    rw [hworker] at hcalm
    refine h.onward rfl ?_
    cases interrupted with
    | true => cases hcalm
    | false => rfl
  · rename_i interrupted hworker
    rw [hworker] at hcalm
    split at hstep
    · obtain rfl := Option.some.inj hstep
      obtain ⟨mode, henter⟩ := enterLinuxPty_spec host
        { s with startAlpineAfterCommand := false, worker := .waiting }
      rw [henter]
      exact h.onward rfl rfl
    · obtain rfl := Option.some.inj hstep
      refine h.onward rfl ?_
      cases interrupted with
      | true => cases hcalm
      | false => rfl
  · rename_i interrupted items hworker
    rw [hworker] at hcalm
    cases interrupted with
    | true => cases hcalm
    | false =>
        split at hstep
        · obtain rfl := Option.some.inj hstep
          exact h.onward rfl rfl
        · obtain rfl := Option.some.inj hstep
          exact h.onward rfl rfl
  · rename_i line leftovers hworker
    obtain rfl := Option.some.inj hstep
    have hidle : s.busy = false := haccounts.idle (by rw [hworker]; rfl)
    obtain ⟨queue, kept, mode, pythonLines, hhandle, -, hqueue⟩ := handle_spec host s line
    rw [submitLine, hidle, if_neg Bool.false_ne_true, hhandle]
    exact ⟨h.isRunning, h.interrupt, h.dropped, fun hnone => h.queue (hqueue hnone), h.lock, rfl⟩
  · obtain rfl := Option.some.inj hstep
    exact h.onward rfl rfl
  · cases hstep

/-- What a program does, and how it ends. -/
theorem program_step {a : TypedStep} (ha : a.isProgram = true) (hstep : step s a = some s') :
    s' = { s' with
        isRunning := s.isRunning, interrupt := s.interrupt, commandQueue := s.commandQueue
        lock := s.lock, dropped := s.dropped } ∧
      s'.worker.calm = true ∧ s'.worker.drains = true := by
  cases a with
  | poll =>
      rw [step] at hstep
      split at hstep
      · split at hstep
        · obtain rfl := Option.some.inj hstep
          exact ⟨rfl, rfl, rfl⟩
        · cases hstep
      · cases hstep
  | get =>
      rw [step] at hstep
      split at hstep
      · obtain rfl := Option.some.inj hstep
        exact ⟨rfl, rfl, rfl⟩
      · cases hstep
  | timeout =>
      rw [step] at hstep
      split at hstep
      · obtain rfl := Option.some.inj hstep
        exact ⟨rfl, rfl, rfl⟩
      · cases hstep
  | finish host =>
      rw [step] at hstep
      split at hstep
      · rename_i source hworker
        obtain rfl := Option.some.inj hstep
        obtain ⟨awaitingAlpine, startAlpineAfterCommand, hrendered⟩ := rendered_spec host s
        rw [hrendered]
        cases source with
        | true => exact ⟨rfl, rfl, rfl⟩
        | false => exact ⟨rfl, rfl, rfl⟩
      · cases hstep
  | raises =>
      rw [step] at hstep
      split at hstep
      · obtain rfl := Option.some.inj hstep
        exact ⟨rfl, rfl, rfl⟩
      · obtain rfl := Option.some.inj hstep
        exact ⟨rfl, rfl, rfl⟩
      · cases hstep
  | _ => cases ha

theorem calm_step (h : Calm s) (haccounts : Accounts s) {a : TypedStep} (hok : Undisturbed s a)
    (hstep : step s a = some s') : Calm s' := by
  cases a with
  | type line =>
      rw [step] at hstep
      split at hstep
      · rw [if_pos h.isRunning] at hstep
        obtain rfl := Option.some.inj hstep
        exact ⟨h.isRunning, h.interrupt, h.dropped, h.queue, rfl, h.worker⟩
      · cases hstep
  | submit host => exact calm_submit h hstep
  | interrupt =>
      rw [interrupt_of_calm h.lock] at hstep
      cases hstep
  | work host => exact calm_work h haccounts hstep
  | press | stop | interrupted => exact hok.elim
  | poll | get | timeout | finish | raises =>
      obtain ⟨hsame, hcalm, -⟩ := program_step rfl hstep
      exact h.onward hsame hcalm

theorem calm_of_reach {awaitingAlpine : Bool}
    (h : Reach step Undisturbed (start awaitingAlpine) s) : Calm s := by
  have hboth := h.invariant (fun s => Calm s ∧ Accounts s)
    ⟨calm_start awaitingAlpine, accounts_start awaitingAlpine⟩ fun _ _ _ hs hok hstep =>
      ⟨calm_step hs.1 hs.2 hok hstep, accounts_step hs.2 hstep⟩
  exact hboth.1

/-- **Every line is used once**, in every run: read by a program, run, kept
by the console, thrown away or still under way; programs read lines in the
order in which they were typed; and none is thrown away before something is
interrupted or stopped. -/
theorem typed_once {awaitingAlpine : Bool} (h : Reach step Free (start awaitingAlpine) s) :
    s.typed.Perm (s.read ++ s.ran.map Prod.fst ++ s.kept ++ s.dropped ++ s.pending) ∧
      s.read.Sublist s.typed ∧
      (Reach step Undisturbed (start awaitingAlpine) s → s.dropped = []) := by
  have haccounts := accounts_of_reach h
  obtain ⟨taken, hread, htyped⟩ := haccounts.order
  refine ⟨List.perm_iff_count.mpr fun l => ?_, hread.trans ?_,
    fun hundisturbed => (calm_of_reach hundisturbed).dropped⟩
  · rw [haccounts.once, List.count_append, used]
  · rw [List.append_assoc] at htyped
    exact (List.sublist_append_left ..).trans htyped

/-! ## Lines that are put in time -/

/-- What is not drained any more is empty. -/
def Drained (s : TypedLines) : Prop := s.worker.drains = false → s.stdinQueue = []

theorem drained_submit (h : Drained s) (hok : InTime s (.submit host))
    (hstep : step s (.submit host) = some s') : Drained s' := by
  rw [step] at hstep
  split at hstep
  · rename_i line hlock
    obtain rfl := Option.some.inj hstep
    intro hdrains
    have htrue := hok (by rw [hlock]; rfl)
    cases htrue.symm.trans hdrains
  · rename_i line hlock
    obtain rfl := Option.some.inj hstep
    obtain ⟨queue, kept, mode, pythonLines, hhandle, -, -⟩ := handle_spec host s line
    rw [hhandle]
    exact h
  · cases hstep

theorem drained_work (h : Drained s) (haccounts : Accounts s) (hok : InTime s (.work host))
    (hstep : step s (.work host) = some s') : Drained s' := by
  have hdrained := h
  rw [step, work] at hstep
  split at hstep
  · rename_i hworker
    rw [Drained, hworker] at hdrained
    split at hstep
    · cases hstep
    · obtain rfl := Option.some.inj hstep
      exact fun _ => hdrained rfl
  · rename_i hworker
    rw [Drained, hworker] at hdrained
    obtain rfl := Option.some.inj hstep
    exact fun _ => hdrained rfl
  · rename_i command hworker
    rw [Drained, hworker] at hdrained
    split at hstep
    · obtain rfl := Option.some.inj hstep
      exact fun _ => hdrained rfl
    · obtain rfl := Option.some.inj hstep
      exact fun _ => hdrained rfl
  · obtain rfl := Option.some.inj hstep
    exact nofun
  · obtain rfl := Option.some.inj hstep
    intro hdrains
    dsimp only at hdrains
    split at hdrains <;> cases hdrains
  · obtain rfl := Option.some.inj hstep
    exact nofun
  · obtain rfl := Option.some.inj hstep
    unfold runLine
    dsimp only
    split
    · exact nofun
    · exact nofun
    · exact nofun
  · cases hstep
  · obtain rfl := Option.some.inj hstep
    exact nofun
  · obtain rfl := Option.some.inj hstep
    exact nofun
  · obtain rfl := Option.some.inj hstep
    exact nofun
  · obtain rfl := Option.some.inj hstep
    exact nofun
  · obtain rfl := Option.some.inj hstep
    exact nofun
  · rename_i interrupted hworker
    split at hstep
    · rename_i hstarts
      obtain rfl := Option.some.inj hstep
      obtain ⟨mode, henter⟩ := enterLinuxPty_spec host
        { s with startAlpineAfterCommand := false, worker := .waiting }
      rw [henter]
      intro _
      rcases hok (by rw [hworker]; rfl) with hnot | hempty
      · cases hstarts.2.symm.trans hnot
      · exact hempty
    · obtain rfl := Option.some.inj hstep
      exact nofun
  · split at hstep
    · obtain rfl := Option.some.inj hstep
      exact nofun
    · rename_i hstdin
      split at hstep
      · obtain rfl := Option.some.inj hstep
        exact fun _ => hstdin
      · obtain rfl := Option.some.inj hstep
        exact fun _ => hstdin
  · rename_i line leftovers hworker
    obtain rfl := Option.some.inj hstep
    rw [Drained, hworker] at hdrained
    have hidle : s.busy = false := haccounts.idle (by rw [hworker]; rfl)
    obtain ⟨queue, kept, mode, pythonLines, hhandle, -, -⟩ := handle_spec host s line
    rw [submitLine, hidle, if_neg Bool.false_ne_true, hhandle]
    exact fun _ => hdrained rfl
  · rename_i hworker
    obtain rfl := Option.some.inj hstep
    rw [Drained, hworker] at hdrained
    exact fun _ => hdrained rfl
  · cases hstep

theorem drained_step (h : Drained s) (haccounts : Accounts s) {a : TypedStep} (hok : InTime s a)
    (hstep : step s a = some s') : Drained s' := by
  cases a with
  | type line =>
      rw [step] at hstep
      split at hstep
      · split at hstep
        · obtain rfl := Option.some.inj hstep
          exact h
        · cases hstep
      · cases hstep
  | submit host => exact drained_submit h hok hstep
  | interrupt =>
      rw [step] at hstep
      split at hstep <;> cases hstep <;> exact h
  | work host => exact drained_work h haccounts hok hstep
  | press | stop | interrupted => exact hok.elim
  | poll | get | timeout | finish | raises =>
      obtain ⟨-, -, hdrains⟩ := program_step rfl hstep
      intro hdone
      cases hdrains.symm.trans hdone

theorem drained_of_reach {awaitingAlpine : Bool}
    (h : Reach step InTime (start awaitingAlpine) s) : Drained s := by
  have hboth := h.invariant (fun s => Drained s ∧ Accounts s)
    ⟨fun _ => rfl, accounts_start awaitingAlpine⟩ fun _ _ _ hs hok hstep =>
      ⟨drained_step hs.1 hs.2 hok hstep, accounts_step hs.2 hstep⟩
  exact hboth.1

/-- Nothing moves any more unless another line is typed. -/
def AtRest (s : TypedLines) : Prop :=
  s.lock = .idle ∧ s.worker = .waiting ∧ s.commandQueue = []

/-- Without a Ctrl+C no line is thrown away, and when all is done every
line has been read by a program, run, or kept by the console. -/
theorem typed_used {awaitingAlpine : Bool} (h : Reach step InTime (start awaitingAlpine) s) :
    s.dropped = [] ∧
      (s.AtRest → s.typed.Perm (s.read ++ s.ran.map Prod.fst ++ s.kept)) := by
  have hcalm := calm_of_reach (h.imp fun _ _ => undisturbed_of_inTime)
  have haccounts := accounts_of_reach h
  refine ⟨hcalm.dropped, ?_⟩
  rintro ⟨hlock, hworker, hqueue⟩
  have hstdin : s.stdinQueue = [] := drained_of_reach h (by rw [hworker]; rfl)
  refine List.perm_iff_count.mpr fun l => ?_
  rw [haccounts.once, used, pending, hcalm.dropped, hstdin, hlock, hworker, hqueue]
  simp [LockPc.lines, WorkPc.lines]

/-! ## A program that reads -/

/-- A shell with `cat`, which reads two lines here. -/
def catHost : Host where
  isCommand _ word := word = "cat".toList
  incomplete _ := false
  raises _ := false
  alpineInstalled _ := false
  alpineStarts _ := false

def enter (line : String) : List TypedStep := [.type line.toList, .submit catHost]

def turns (n : ℕ) : List TypedStep := List.replicate n (.work catHost)

/-- The program reads `a`; `b` comes in time, `python` is left over and is
for the console. -/
def reading : List TypedStep :=
  enter "cat" ++ turns 6 ++ enter "a" ++ [.poll, .get, .poll, .timeout, .poll] ++ enter "b"
    ++ enter "python" ++ [.get, .finish catHost] ++ turns 7

/-- A Ctrl+C throws the line away that the program has not read. -/
def interrupting : List TypedStep :=
  enter "cat" ++ turns 6 ++ enter "a" ++ [.poll, .get] ++ enter "b"
    ++ [.press, .interrupt, .interrupt, .interrupt, .interrupted] ++ turns 6

theorem typed_once_interrupted : ∃ s : TypedLines, s.dropped = ["b".toList] ∧
    s.typed.Perm (s.read ++ s.ran.map Prod.fst ++ s.kept ++ s.dropped ++ s.pending) ∧
      s.read.Sublist s.typed ∧ (Reach step Undisturbed (start false) s → s.dropped = []) := by
  obtain ⟨s, hs, hend⟩ := reach_of_replay (p := fun s : TypedLines => s.dropped == ["b".toList])
    (show (replay step Free (start false) interrupting).map _ = some true by decide)
  exact ⟨s, by simpa using hend, typed_once hs⟩

instance (s : TypedLines) : (a : TypedStep) → Decidable (InTime s a)
  | .press | .stop | .interrupted => instDecidableFalse
  | .submit _ => inferInstanceAs (Decidable (_ → _))
  | .work _ => inferInstanceAs (Decidable (_ → _ ∨ _))
  | .type _ | .interrupt | .poll | .get | .timeout | .finish _ | .raises => instDecidableTrue

instance (s : TypedLines) : Decidable s.AtRest := inferInstanceAs (Decidable (_ ∧ _ ∧ _))

theorem typed_used_cat : ∃ s : TypedLines, s.read = ["a".toList, "b".toList] ∧
    s.kept = ["python".toList] ∧ s.dropped = [] ∧
      s.typed.Perm (s.read ++ s.ran.map Prod.fst ++ s.kept) := by
  obtain ⟨s, hs, hend⟩ := reach_of_replay
    (p := fun s : TypedLines => decide (s.AtRest ∧ s.read = ["a".toList, "b".toList] ∧
      s.kept = ["python".toList]))
    (show (replay step InTime (start false) reading).map _ = some true by decide)
  obtain ⟨hrest, hread, hkept⟩ := of_decide_eq_true hend
  obtain ⟨hdropped, hused⟩ := typed_used hs
  exact ⟨s, hread, hkept, hdropped, hused hrest⟩

end TypedLines

end Zmux
