import Zmux.ConsoleReading
import Zmux.ConsoleWorker

/-!
# Typed lines run in order

What the console is for is said by a sequential console (`Reading`), which
finishes each line before it reads the next one. The real one should run
the same command lines in the same order (`RunsInOrder`).

The proof follows one quantity. `ahead` is what the session will be once
the worker has run all command lines that are queued. A step of the worker
does not change it, and a line that is handled moves it on as the
sequential console moves on when it reads that line, provided that

- no line typed earlier still waits to be handled, and
- what the worker has yet to do does not change how the line is treated.

`InTurn` is this condition, with two more on the stdin queue: a line is
put there only before it is drained, and Alpine is not started over it.
-/

namespace Zmux

/-! ## What the session is heading for -/

/-- The line the input thread has in hand. -/
def InputPc.lines : InputPc → List Line
  | .idle => []
  | .checked line _ => [line]

namespace WorkerPc

/-- The command line the worker has taken and not started yet. -/
def command : WorkerPc → List Command
  | .dequeued command | .running command => [command]
  | _ => []

def leftovers : WorkerPc → List Line
  | .resubmitting leftovers => leftovers
  | _ => []

/-- The open block, of which the worker may have to clear the lines. -/
def block (pythonLines : List Line) : WorkerPc → List Line
  | .executed => []
  | _ => pythonLines

/-- The worker will drain the stdin queue before it waits. -/
def drains : WorkerPc → Bool
  | .waiting | .resubmitting _ => false
  | _ => true

end WorkerPc

namespace Console

def reading (s : Console) : Reading where
  mode := s.mode
  block := s.worker.block s.pythonLines
  gate := s.awaitingAlpine
  ran := s.ran

/-- What the session will be when the queued command lines have run. -/
def ahead (host : Host) (s : Console) : Reading :=
  s.reading.runAll host (s.worker.command ++ s.commandQueue)

/-- The lines that are typed but not handled yet, oldest first. -/
def waiting (s : Console) : List Line :=
  s.worker.leftovers ++ s.stdinQueue ++ s.input.lines

/-- The queued command lines do not change how the line is treated: a
blank line finds a block open now if it would find one then; the setup
gate will be as it is; leaving the REPL clears a block only if no line is
still to run; and the words that open Alpine come while nothing runs. -/
def Timely (host : Host) (s : Console) (line : Line) : Prop :=
  if strip line = [] then s.pythonLines = [] ↔ (s.ahead host).block = []
  else s.awaitingAlpine = (s.ahead host).gate ∧
    (s.awaitingAlpine = false → s.mode = .shell → strip line ∈ alpineEnter → s.busy = false) ∧
    (s.awaitingAlpine = false → s.mode = .repl → strip line ∈ replExit →
      s.worker.command ++ s.commandQueue = [] ∨
        s.pythonLines = [] ∧ (s.ahead host).block = [])

/-- A line goes to the stdin queue only before the worker drains it or
while a command line is queued, and to the command queue only if no line
typed before it waits. -/
def SubmitInTurn (host : Host) (s : Console) : InputPc → Prop
  | .idle => True
  | .checked _ true => s.worker.drains = true ∨ s.commandQueue ≠ []
  | .checked line false => s.worker.leftovers = [] ∧ s.stdinQueue = [] ∧ Timely host s line

/-- The worker starts Alpine only if no line was typed meanwhile. -/
def WorkInTurn (host : Host) (s : Console) : WorkerPc → Prop
  | .cleared => s.startAlpineAfterCommand = true → s.stdinQueue = [] ∧ s.mode = .shell
  | .resubmitting (line :: _) => Timely host s line
  | _ => True

def InTurn (host : Host) (s : Console) : ConsoleStep → Prop
  | .type _ => True
  | .submit => SubmitInTurn host s s.input
  | .work => WorkInTurn host s s.worker

instance (host : Host) (s : Console) (line : Line) : Decidable (Timely host s line) :=
  inferInstanceAs (Decidable (ite _ _ _))

instance (host : Host) (s : Console) (input : InputPc) : Decidable (SubmitInTurn host s input) :=
  match input with
  | .idle => instDecidableTrue
  | .checked _ true =>
    inferInstanceAs (Decidable (s.worker.drains = true ∨ s.commandQueue ≠ []))
  | .checked line false =>
    inferInstanceAs (Decidable (s.worker.leftovers = [] ∧ s.stdinQueue = [] ∧ Timely host s line))

instance (host : Host) (s : Console) (worker : WorkerPc) : Decidable (WorkInTurn host s worker) :=
  match worker with
  | .cleared => inferInstanceAs
      (Decidable (s.startAlpineAfterCommand = true → s.stdinQueue = [] ∧ s.mode = .shell))
  | .resubmitting (line :: _) => inferInstanceAs (Decidable (Timely host s line))
  | .waiting | .dequeued _ | .running _ | .extended | .executed | .finishing
  | .resubmitting [] => instDecidableTrue

instance (host : Host) (s : Console) (a : ConsoleStep) : Decidable (InTurn host s a) :=
  match a with
  | .type _ => instDecidableTrue
  | .submit => inferInstanceAs (Decidable (SubmitInTurn host s s.input))
  | .work => inferInstanceAs (Decidable (WorkInTurn host s s.worker))

structure InStep (host : Host) (r₀ : Reading) (s : Console) : Prop where
  /-- What was handled, read in order, is what the session heads for. -/
  handled : ∃ handled, s.typed = handled ++ s.waiting ∧ r₀.readAll host handled = s.ahead host
  drained : s.stdinQueue ≠ [] → s.worker.drains = true ∨ s.commandQueue ≠ []

/-! ## Handling a line -/

variable {host : Host} {r₀ : Reading} {s s' : Console} {line : Line}

theorem ahead_mode (s : Console) : (s.ahead host).mode = s.mode := Reading.runAll_mode ..

/-- A timely line is treated as the sequential console treats it. -/
theorem Timely.verdict_eq (h : Timely host s line) :
    verdict s.busy s.awaitingAlpine s.mode s.pythonLines line
      = verdict false (s.ahead host).gate (s.ahead host).mode (s.ahead host).block line := by
  rw [ahead_mode]
  unfold Timely at h
  unfold verdict
  by_cases hblank : strip line = []
  · rw [if_pos hblank] at h
    simp only [hblank, if_true, ne_eq, h]
  · rw [if_neg hblank] at h
    obtain ⟨hgate, hbusy, -⟩ := h
    simp only [hblank, if_false, ← hgate]
    cases hawaiting : s.awaitingAlpine with
    | true => rfl
    | false =>
        have halpine : (s.mode = .shell ∧ s.busy = false ∧ strip line ∈ alpineEnter)
            ↔ (s.mode = .shell ∧ True ∧ strip line ∈ alpineEnter) :=
          ⟨fun h => ⟨h.1, trivial, h.2.2⟩, fun h => ⟨h.1, hbusy hawaiting h.1 h.2.2, h.2.2⟩⟩
        rw [if_congr halpine rfl rfl]

theorem block_nil (worker : WorkerPc) : worker.block [] = [] := by
  cases worker <;> rfl

theorem ahead_handle (h : Timely host s line) :
    (s.handle host line).ahead host = (s.ahead host).read host line := by
  obtain ⟨history, hhistory⟩ := historyRecord_eq s (strip line)
  unfold handle Reading.read
  rw [← h.verdict_eq]
  simp only [hhistory]
  cases hv : verdict s.busy s.awaitingAlpine s.mode s.pythonLines line with
  | ignore => rfl
  | queue mode =>
      show s.reading.runAll host (s.worker.command ++ (s.commandQueue ++ [(line, mode)]))
        = (s.ahead host).run host (line, mode)
      rw [← List.append_assoc, Reading.runAll_snoc]
      rfl
  | enterRepl => exact Reading.runAll_switch s.reading .repl _
  | enterAlpine =>
      have hsame : { s with history := history }.enterLinuxPty host
          = { s with history := history } := enterLinuxPty_shell (mode_of_enterAlpine hv)
      show ({ s with history := history }.enterLinuxPty host).ahead host = s.ahead host
      rw [hsame]
      rfl
  | leaveRepl =>
      obtain ⟨hblank, hgate, hmode, hexit⟩ := word_of_leaveRepl hv
      unfold Timely at h
      rw [if_neg hblank] at h
      show Reading.runAll host ⟨.shell, s.worker.block [], s.awaitingAlpine, s.ran⟩
        (s.worker.command ++ s.commandQueue)
          = ⟨.shell, [], (s.ahead host).gate, (s.ahead host).ran⟩
      rw [block_nil]
      rcases h.2.2 hgate hmode hexit with hnone | ⟨hlines, hblock⟩
      · rw [ahead, hnone]
        rfl
      · have hswitch : Reading.runAll host ⟨.shell, s.worker.block s.pythonLines, s.awaitingAlpine,
            s.ran⟩ (s.worker.command ++ s.commandQueue)
              = ⟨.shell, (s.ahead host).block, (s.ahead host).gate, (s.ahead host).ran⟩ :=
          Reading.runAll_switch s.reading .shell _
        rw [hlines, block_nil, hblock] at hswitch
        exact hswitch

/-! ## One step -/

theorem InStep.move (h : InStep host r₀ s) (htyped : s'.typed = s.typed)
    (hwaiting : s'.waiting = s.waiting) (hahead : s'.ahead host = s.ahead host)
    (hdrained : s'.stdinQueue ≠ [] → s'.worker.drains = true ∨ s'.commandQueue ≠ []) :
    InStep host r₀ s' := by
  obtain ⟨handled, hsplit, hread⟩ := h.handled
  exact ⟨⟨handled, by rw [htyped, hwaiting, hsplit], by rw [hahead, hread]⟩, hdrained⟩

/-- Running a command line is a step of the sequential console. -/
theorem reading_runLine {command : Command} (hworker : s.worker = .running command) :
    (s.runLine host command).reading = s.reading.run host command := by
  have hreading : s.reading = ⟨s.mode, s.pythonLines, s.awaitingAlpine, s.ran⟩ := by
    rw [reading, hworker]
    rfl
  rw [hreading]
  unfold runLine Reading.run
  dsimp only
  cases outcome host s.ran s.pythonLines command with
  | block => rfl
  | command =>
      cases hraises : host.raises (s.ran ++ [command]) <;>
        simp [rendered_eq, reading, WorkerPc.block]
  | source =>
      cases hraises : host.raises (s.ran ++ [command]) <;>
        simp [rendered_eq, reading, WorkerPc.block]

theorem inStep_type (h : InStep host r₀ s) (hinput : s.input = .idle) (line : Line) :
    InStep host r₀ { s with input := .checked line s.busy, typed := s.typed ++ [line] } := by
  obtain ⟨handled, hsplit, hread⟩ := h.handled
  refine ⟨⟨handled, ?_, hread⟩, h.drained⟩
  show s.typed ++ [line] = handled ++ (s.worker.leftovers ++ s.stdinQueue ++ [line])
  rw [hsplit, waiting, hinput, InputPc.lines, List.append_nil, List.append_assoc]

theorem inStep_defer (h : InStep host r₀ s) {busy : Bool} (hinput : s.input = .checked line busy)
    (hok : s.worker.drains = true ∨ s.commandQueue ≠ []) :
    InStep host r₀ { s with stdinQueue := s.stdinQueue ++ [line], input := .idle } := by
  refine h.move rfl ?_ rfl fun _ => hok
  show s.worker.leftovers ++ (s.stdinQueue ++ [line]) ++ [] = s.waiting
  rw [waiting, hinput, InputPc.lines, List.append_nil, List.append_assoc]

theorem inStep_handle (h : InStep host r₀ s) {busy : Bool}
    (hinput : s.input = .checked line busy)
    (hok : s.worker.leftovers = [] ∧ s.stdinQueue = [] ∧ Timely host s line) :
    InStep host r₀ { s.handle host line with input := .idle } := by
  obtain ⟨hleftovers, hstdin, htimely⟩ := hok
  obtain ⟨handled, hsplit, hread⟩ := h.handled
  obtain ⟨history, queued, mode, pythonLines, hhandle, -⟩ := handle_eq host s line
  have hahead := ahead_handle htimely
  rw [hhandle] at hahead ⊢
  refine ⟨⟨handled ++ [line], ?_, ?_⟩, fun hne => (hne hstdin).elim⟩
  · show s.typed = handled ++ [line] ++ (s.worker.leftovers ++ s.stdinQueue ++ [])
    rw [hsplit, waiting, hinput, hleftovers, hstdin]
    simp [InputPc.lines]
  · rw [Reading.readAll_snoc, hread, ← hahead]
    rfl

theorem inStep_resubmit (h : InStep host r₀ s) {leftovers : List Line}
    (hworker : s.worker = .resubmitting (line :: leftovers)) (hidle : s.busy = false)
    (hok : Timely host s line) :
    InStep host r₀ { s.submitLine host line with worker := .resubmitting leftovers } := by
  obtain ⟨handled, hsplit, hread⟩ := h.handled
  obtain ⟨history, queued, mode, pythonLines, hhandle, -⟩ := handle_eq host s line
  have hahead := ahead_handle hok
  rw [submitLine, hidle, if_neg Bool.false_ne_true]
  rw [hhandle] at hahead ⊢
  refine ⟨⟨handled ++ [line], ?_, ?_⟩, fun hne => ?_⟩
  · show s.typed = handled ++ [line] ++ (leftovers ++ s.stdinQueue ++ s.input.lines)
    rw [hsplit, waiting, hworker]
    simp [WorkerPc.leftovers]
  · rw [Reading.readAll_snoc, hread, ← hahead, ahead, ahead, reading, reading, hworker]
    rfl
  · rcases h.drained hne with hdrains | hqueue
    · rw [hworker] at hdrains
      cases hdrains
    · exact Or.inr (List.append_ne_nil_of_left_ne_nil hqueue queued)

theorem inStep_run (h : InStep host r₀ s) {command : Command}
    (hworker : s.worker = .running command) : InStep host r₀ (s.runLine host command) := by
  have hreading : (s.runLine host command).reading = s.reading.run host command :=
    reading_runLine hworker
  obtain ⟨pythonLines, awaiting, alpine, worker, hrun, hpc⟩ := runLine_eq host s command
  rw [hrun] at hreading ⊢
  have hworker' : worker.command = [] ∧ worker.leftovers = [] ∧ worker.drains = true := by
    rcases hpc with rfl | rfl | rfl <;> exact ⟨rfl, rfl, rfl⟩
  obtain ⟨hcommand, hleftovers, hdrains⟩ := hworker'
  refine h.move rfl ?_ ?_ fun _ => Or.inl hdrains
  · show worker.leftovers ++ s.stdinQueue ++ s.input.lines = s.waiting
    rw [hleftovers, waiting, hworker]
    rfl
  · rw [ahead, ahead, hreading, hworker]
    show Reading.runAll host _ (worker.command ++ s.commandQueue) = _
    rw [hcommand]
    rfl

/-- A step that leaves all queues alone. -/
theorem InStep.pass (h : InStep host r₀ s) (htyped : s'.typed = s.typed)
    (hwaiting : s'.waiting = s.waiting) (hahead : s'.ahead host = s.ahead host)
    (hdrains : s'.worker.drains = true) : InStep host r₀ s' :=
  h.move htyped hwaiting hahead fun _ => Or.inl hdrains

theorem inStep_work (h : InStep host r₀ s) (hactive : BusyWhileActive s)
    (hok : WorkInTurn host s s.worker) (hs : Worked host s s') : InStep host r₀ s' := by
  cases hs with
  | dequeue hworker hqueue =>
      refine h.pass rfl ?_ ?_ rfl
      · simp [waiting, hworker, WorkerPc.leftovers]
      · simp [ahead, reading, hworker, hqueue, WorkerPc.command, WorkerPc.block]
  | setBusy hworker =>
      refine h.pass rfl ?_ ?_ rfl
      · simp [waiting, hworker, WorkerPc.leftovers]
      · simp [ahead, reading, hworker, WorkerPc.command, WorkerPc.block]
  | run hworker => exact inStep_run h hworker
  | await hworker =>
      refine h.pass rfl ?_ ?_ rfl
      · simp [waiting, hworker, WorkerPc.leftovers]
      · simp [ahead, reading, hworker, WorkerPc.command, WorkerPc.block]
  | clearBlock hworker =>
      refine h.pass rfl ?_ ?_ rfl
      · simp [waiting, hworker, WorkerPc.leftovers]
      · simp [ahead, reading, hworker, WorkerPc.command, WorkerPc.block]
  | clearBusy hworker =>
      refine h.pass rfl ?_ ?_ rfl
      · simp [waiting, hworker, WorkerPc.leftovers]
      · simp [ahead, reading, hworker, WorkerPc.command, WorkerPc.block]
  | startAlpine hworker halpine =>
      rw [hworker] at hok
      obtain ⟨hstdin, hmode⟩ := hok halpine
      have hsame : Console.enterLinuxPty host
          { s with startAlpineAfterCommand := false, worker := .waiting }
            = { s with startAlpineAfterCommand := false, worker := .waiting } :=
        enterLinuxPty_shell hmode
      rw [hsame]
      refine h.move rfl ?_ ?_ fun hne => (hne hstdin).elim
      · simp [waiting, hworker, WorkerPc.leftovers]
      · simp [ahead, reading, hworker, WorkerPc.command, WorkerPc.block]
  | drain hworker =>
      refine h.move rfl ?_ ?_ fun hne => (hne rfl).elim
      · simp [waiting, hworker, WorkerPc.leftovers]
      · simp [ahead, reading, hworker, WorkerPc.command, WorkerPc.block]
  | resubmit hworker =>
      rw [hworker] at hok
      exact inStep_resubmit h hworker (hactive.idle (by rw [hworker]; rfl)) hok
  | wait hworker =>
      refine h.move rfl ?_ ?_ fun hne => ?_
      · simp [waiting, hworker, WorkerPc.leftovers]
      · simp [ahead, reading, hworker, WorkerPc.command, WorkerPc.block]
      · rcases h.drained hne with hdrains | hqueue
        · rw [hworker] at hdrains
          cases hdrains
        · exact Or.inr hqueue

theorem inStep_step (a : ConsoleStep) (h : InStep host r₀ s) (hactive : BusyWhileActive s)
    (hok : InTurn host s a) (hs : step host s a = some s') : InStep host r₀ s' := by
  cases a with
  | type line =>
      rw [step] at hs
      split at hs
      · rename_i hinput
        obtain rfl := Option.some.inj hs
        exact inStep_type h hinput line
      · cases hs
  | submit =>
      rw [step] at hs
      rw [InTurn] at hok
      split at hs
      · cases hs
      · rename_i line hinput
        rw [hinput] at hok
        obtain rfl := Option.some.inj hs
        exact inStep_defer h hinput hok
      · rename_i line hinput
        rw [hinput] at hok
        obtain rfl := Option.some.inj hs
        exact inStep_handle h hinput hok
  | work => exact inStep_work h hactive hok (worked_of_work hs)

/-! ## Every run -/

theorem inStep_start (host : Host) (awaiting : Bool) :
    InStep host (start awaiting).reading (start awaiting) where
  handled := ⟨[], rfl, rfl⟩
  drained hne := (hne rfl).elim

/-- The worker runs the command lines of the sequential console, in order
and each once, and all of them once the session is at rest. -/
def RunsInOrder (host : Host) (r₀ : Reading) (s : Console) : Prop :=
  s.ran <+: (r₀.readAll host s.typed).ran
    ∧ (s.AtRest → s.ran = (r₀.readAll host s.typed).ran)

theorem InStep.runsInOrder (h : InStep host r₀ s) : RunsInOrder host r₀ s := by
  obtain ⟨handled, hsplit, hread⟩ := h.handled
  refine ⟨?_, fun ⟨hinput, hworker, hqueue⟩ => ?_⟩
  · rw [hsplit]
    refine List.IsPrefix.trans ?_ (Reading.readAll_extends r₀ handled s.waiting)
    rw [hread, ahead, Reading.runAll_ran]
    exact List.prefix_append ..
  · have hstdin : s.stdinQueue = [] := by
      by_contra hne
      rcases h.drained hne with hdrains | hne'
      · rw [hworker] at hdrains
        cases hdrains
      · exact hne' hqueue
    have hnone : s.waiting = [] := by
      rw [waiting, hworker, hstdin, hinput]
      rfl
    rw [hsplit, hnone, List.append_nil, hread, ahead, hworker, hqueue]
    rfl

theorem inStep_of_reach {awaiting : Bool}
    (h : Reach (step host) (InTurn host) (start awaiting) s) :
    InStep host (start awaiting).reading s :=
  (h.invariant (fun s => InStep host (start awaiting).reading s ∧ BusyWhileActive s)
    ⟨inStep_start host awaiting, nofun⟩
    fun _ a _ hs hok hnext =>
      ⟨inStep_step a hs.1 hs.2 hok hnext, busy_step a hs.2 hnext⟩).1

/-- **Typed lines run in order** in every state that a run of steps in
turn reaches. -/
theorem lines_run_in_order {awaiting : Bool}
    (h : Reach (step host) (InTurn host) (start awaiting) s) :
    RunsInOrder host (start awaiting).reading s := (inStep_of_reach h).runsInOrder

/-- Without the setup gate and words of the console itself, the lines that
have run when the session is at rest are the lines that were typed. -/
theorem plain_lines_run_once (h : Reach (step host) (InTurn host) (start false) s)
    (hrest : s.AtRest) (hplain : ∀ line ∈ s.typed, Plain line) :
    (s.ran.map Prod.fst).filter nonBlank = s.typed.filter nonBlank := by
  rw [(inStep_of_reach h).runsInOrder.2 hrest, Reading.readAll_plain rfl hplain]
  rfl

/-! ## Lines that overtake

A shell that knows the command `ls`, and Python that leaves a block open
until it sees a blank line. -/

def lsHost : Host where
  isCommand _ word := word = "ls".toList
  incomplete text := ':' ∈ text && text.getLast? ≠ some '\n'
  raises _ := false
  alpineInstalled _ := false
  alpineStarts _ := false

def submitted (line : String) : List ConsoleStep := [.type line.toList, .submit]

/-- The second line is typed while the first runs, the third between
clearing busy and draining the stdin queue. -/
def overtaking : List ConsoleStep :=
  submitted "ls" ++ [.work, .work] ++ submitted "1 + 1" ++ [.work, .work] ++ submitted "2 + 2"
    ++ List.replicate 6 .work

instance (s : Console) : Decidable s.AtRest := inferInstanceAs (Decidable (_ ∧ _ ∧ _))

theorem third_line_overtakes :
    ∃ s, Reach (step lsHost) Free (start false) s ∧
      ¬RunsInOrder lsHost (start false).reading s := by
  obtain ⟨s, hs, hbad⟩ := reach_of_replay
    (p := fun s => decide ¬s.ran <+: ((start false).reading.readAll lsHost s.typed).ran)
    (show (replay (step lsHost) Free (start false) overtaking).map _ = some true by decide)
  exact ⟨s, hs, fun h => of_decide_eq_true hbad h.1⟩

/-- The blank line of a block that is typed ahead is dropped: when it is
submitted again, the worker has not seen the block yet. -/
example : (replay (step lsHost) Free (start false)
    (submitted "ls" ++ [.work, .work] ++ submitted "if x:" ++ submitted ""
      ++ List.replicate 13 .work)).map (fun s => (decide s.AtRest, s.ran.length))
      = some (true, 2) := by
  decide

/-- A block is typed slowly and closed by a blank line, and the next line
is typed while it runs. -/
def slowly : List ConsoleStep :=
  submitted "if x:" ++ List.replicate 7 .work ++ submitted " y" ++ List.replicate 7 .work
    ++ submitted "" ++ [.work, .work] ++ submitted "ls" ++ List.replicate 12 .work

theorem slow_lines_run_in_order :
    ∃ s, s.AtRest ∧ s.ran.length = 4 ∧ RunsInOrder lsHost (start false).reading s := by
  obtain ⟨s, hs, hdone⟩ := reach_of_replay
    (p := fun s : Console => decide (s.AtRest ∧ s.ran.length = 4))
    (show (replay (step lsHost) (InTurn lsHost) (start false) slowly).map _ = some true by decide)
  obtain ⟨hrest, hlength⟩ := of_decide_eq_true hdone
  exact ⟨s, hrest, hlength, lines_run_in_order hs⟩

end Console

end Zmux
