import Mathlib.Data.List.Induction
import Zmux.ConsoleOrder

/-!
# What the console executes

The steps of `Zmux.Console` with the events they cause: a shell command,
Python source, a change of the mode, the start of Alpine. When every line
is typed at rest, the session does what the sequential console does with
it (`settles_line`), so a run of such lines is known when it is at rest
again (`events_of_run`).
-/

namespace Zmux

inductive ConsoleEvent where
  | command (line : Line)
  | source (text : List Char)
  | enterRepl
  | leaveRepl
  | startAlpine
deriving DecidableEq

/-- `'\n'.join`. -/
def joinLines (lines : List Line) : List Char := ['\n'].intercalate lines

/-- What `_run_line` executes. -/
def runEvents (host : Host) (ran : List Command) (pythonLines : List Line) (command : Command) :
    List ConsoleEvent :=
  match outcome host ran pythonLines command with
  | .command => [.command command.1]
  | .block => []
  | .source => [.source (joinLines (pythonLines ++ [command.1]))]

/-- `_enter_linux_pty` while nothing runs. -/
def alpineEvents (host : Host) (ran : List Command) : List ConsoleEvent :=
  if host.alpineStarts ran then [.startAlpine] else []

namespace Console

def handleEvents (host : Host) (s : Console) (line : Line) : List ConsoleEvent :=
  match verdict s.busy s.awaitingAlpine s.mode s.pythonLines line with
  | .ignore | .queue _ => []
  | .enterRepl => [.enterRepl]
  | .enterAlpine => if s.busy then [] else alpineEvents host s.ran
  | .leaveRepl => [.leaveRepl]

/-- The events of a step. -/
def events (host : Host) (s : Console) : ConsoleStep → List ConsoleEvent
  | .type _ => []
  | .submit =>
    match s.input with
    | .checked line false => s.handleEvents host line
    | _ => []
  | .work =>
    match s.worker with
    | .running command => runEvents host s.ran s.pythonLines command
    | .cleared =>
      if s.startAlpineAfterCommand = true ∧ s.busy = false then alpineEvents host s.ran else []
    | .resubmitting (line :: _) => if s.busy then [] else s.handleEvents host line
    | _ => []

/-- A step of the session, and what has happened so far. -/
def traced (host : Host) (t : Console × List ConsoleEvent) (a : ConsoleStep) :
    Option (Console × List ConsoleEvent) :=
  (step host t.1 a).map fun s => (s, t.2 ++ t.1.events host a)

/-- Lines are typed while nothing runs. -/
def OneAtATime (t : Console × List ConsoleEvent) : ConsoleStep → Prop
  | .type _ => t.1.AtRest
  | _ => True

end Console

namespace Reading

/-- What happens when the sequential console reads the line. -/
def events (host : Host) (r : Reading) (line : Line) : List ConsoleEvent :=
  match verdict false r.gate r.mode r.block line with
  | .ignore => []
  | .queue mode =>
    runEvents host r.ran r.block (line, mode) ++
      -- The setup is over, and Alpine starts after its command.
      if r.gate = true ∧ (r.run host (line, mode)).gate = false then
        alpineEvents host (r.ran ++ [(line, mode)])
      else []
  | .enterRepl => [.enterRepl]
  | .enterAlpine => alpineEvents host r.ran
  | .leaveRepl => [.leaveRepl]

def eventsAll (host : Host) : Reading → List Line → List ConsoleEvent
  | _, [] => []
  | r, line :: lines => r.events host line ++ eventsAll host (r.read host line) lines

theorem eventsAll_snoc {host : Host} (r : Reading) (lines : List Line) (line : Line) :
    r.eventsAll host (lines ++ [line])
      = r.eventsAll host lines ++ (r.readAll host lines).events host line := by
  induction lines generalizing r with
  | nil => exact (List.append_nil _).trans (List.nil_append _).symm
  | cons first lines ih =>
      rw [List.cons_append, eventsAll, ih, eventsAll, List.append_assoc]
      rfl

end Reading

namespace Console

variable {host : Host} {s s' s₁ : Console} {es es' : List ConsoleEvent} {line : Line}

/-! ## The worker until it waits -/

inductive Settles (host : Host) : Console → List ConsoleEvent → Console → Prop
  | rest {s : Console} : s.work host = none → Settles host s [] s
  | next {s s₁ s' : Console} {es : List ConsoleEvent} : s.work host = some s₁ →
      Settles host s₁ es s' → Settles host s (s.events host .work ++ es) s'

/-- A step with no event. -/
theorem Settles.quiet (hwork : s.work host = some s₁) (hquiet : s.events host .work = [])
    (h : Settles host s₁ es s') : Settles host s es s' := by
  have hnext := Settles.next hwork h
  rwa [hquiet, List.nil_append] at hnext

theorem Settles.of_atRest (h : Settles host s es s') (hrest : s.AtRest) : es = [] ∧ s' = s := by
  obtain ⟨-, hworker, hqueue⟩ := hrest
  cases h with
  | rest _ => exact ⟨rfl, rfl⟩
  | next hwork _ => simp only [work, hworker, hqueue, reduceCtorEq] at hwork

theorem Settles.of_work (h : Settles host s es s') (hwork : s.work host = some s₁) :
    ∃ es₁, es = s.events host .work ++ es₁ ∧ Settles host s₁ es₁ s' := by
  cases h with
  | rest hnone => cases hnone.symm.trans hwork
  | next hwork' h' =>
      obtain rfl := Option.some.inj (hwork.symm.trans hwork')
      exact ⟨_, rfl, h'⟩

/-- Nothing runs and nothing waits. -/
structure Clean (s : Console) : Prop where
  rest : s.AtRest
  idle : s.busy = false
  drained : s.stdinQueue = []
  noAlpine : s.startAlpineAfterCommand = false
  gate : s.awaitingAlpine = true → s.mode = .shell

/-- `_finish_command` with nothing typed ahead. -/
theorem settles_finishing (host : Host) {s : Console} (hinput : s.input = .idle)
    (hworker : s.worker = .finishing) (hqueue : s.commandQueue = []) (hstdin : s.stdinQueue = [])
    (hgate : s.awaitingAlpine = true ∨ s.startAlpineAfterCommand = true → s.mode = .shell) :
    ∃ s', Settles host s
        (if s.startAlpineAfterCommand = true then alpineEvents host s.ran else []) s'
      ∧ Clean s' ∧ s'.typed = s.typed
      ∧ s'.reading = ⟨s.mode, s.pythonLines, s.awaitingAlpine, s.ran⟩ := by
  have hclear : s.work host = some { s with busy := false, worker := .cleared } := by
    simp only [work, hworker]
  have hquiet : s.events host .work = [] := by simp only [events, hworker]
  by_cases halpine : s.startAlpineAfterCommand = true
  · have hmode := hgate (.inr halpine)
    rw [if_pos halpine]
    have hlast : ({ s with busy := false, worker := .cleared } : Console).work host
        = some { s with busy := false, startAlpineAfterCommand := false, worker := .waiting } := by
      simp only [work, halpine, if_true]
      exact congrArg some (enterLinuxPty_shell hmode)
    have hevents : ({ s with busy := false, worker := .cleared } : Console).events host .work
        = alpineEvents host s.ran := if_pos ⟨halpine, rfl⟩
    refine ⟨{ s with busy := false, startAlpineAfterCommand := false, worker := .waiting },
      .quiet hclear hquiet ?_, ⟨⟨hinput, rfl, hqueue⟩, rfl, hstdin, rfl, fun _ => hmode⟩,
      rfl, rfl⟩
    have hrest : ({ s with
        busy := false, startAlpineAfterCommand := false, worker := .waiting } : Console).work host
          = none := by simp only [work, hqueue]
    have hnext := Settles.next hlast (.rest hrest)
    rwa [hevents, List.append_nil] at hnext
  · have hnoalpine : s.startAlpineAfterCommand = false := eq_false_of_ne_true halpine
    rw [if_neg halpine]
    have hdrain : ({ s with busy := false, worker := .cleared } : Console).work host
        = some { s with busy := false, stdinQueue := [], worker := .resubmitting [] } := by
      simp only [work, hnoalpine, hstdin, Bool.false_eq_true, if_false]
    have hevents : ({ s with busy := false, worker := .cleared } : Console).events host .work
        = [] := if_neg fun h => halpine h.1
    refine ⟨{ s with busy := false, stdinQueue := [], worker := .waiting },
      .quiet hclear hquiet (.quiet hdrain hevents (.quiet rfl rfl (.rest ?_))),
      ⟨⟨hinput, rfl, hqueue⟩, rfl, rfl, hnoalpine, fun h => hgate (.inl h)⟩, rfl, rfl⟩
    simp only [work, hqueue]

/-- The setup gate after a command line that has run. -/
def gateAfter (host : Host) (s : Console) (command : Command) : Bool :=
  s.awaitingAlpine &&
    (host.raises (s.ran ++ [command]) || !host.alpineInstalled (s.ran ++ [command]))

/-- What `_execute_and_render` leaves. -/
theorem rendered_gate {s : Console} (hnoalpine : s.startAlpineAfterCommand = false)
    (command : Command) (worker : WorkerPc)
    (hraises : host.raises (s.ran ++ [command]) = false) :
    ({ ({ s with ran := s.ran ++ [command] } : Console).rendered host with worker := worker }
        : Console)
      = { s with
          ran := s.ran ++ [command]
          awaitingAlpine := s.gateAfter host command
          startAlpineAfterCommand := s.awaitingAlpine && !s.gateAfter host command
          worker := worker } := by
  rw [rendered_eq, gateAfter, hraises]
  cases s.awaitingAlpine <;> cases host.alpineInstalled (s.ran ++ [command]) <;> simp [hnoalpine]

theorem raised_gate {s : Console} (hnoalpine : s.startAlpineAfterCommand = false)
    (command : Command) (hraises : host.raises (s.ran ++ [command]) = true) :
    s.gateAfter host command = s.awaitingAlpine
      ∧ s.startAlpineAfterCommand = (s.awaitingAlpine && !s.gateAfter host command) := by
  rw [gateAfter, hraises]
  cases s.awaitingAlpine <;> simp [hnoalpine]

/-- A command line runs to the start of `_finish_command`. -/
theorem settles_run (host : Host) (command : Command) {s : Console}
    (hworker : s.worker = .running command) (hnoalpine : s.startAlpineAfterCommand = false) :
    ∃ r : Console, (∀ {es s'}, Settles host r es s' →
        Settles host s (runEvents host s.ran s.pythonLines command ++ es) s')
      ∧ r.worker = .finishing ∧ r.input = s.input ∧ r.commandQueue = s.commandQueue
      ∧ r.stdinQueue = s.stdinQueue ∧ r.typed = s.typed ∧ r.ran = s.ran ++ [command]
      ∧ r.startAlpineAfterCommand = (s.awaitingAlpine && !r.awaitingAlpine)
      ∧ (⟨r.mode, r.pythonLines, r.awaitingAlpine, r.ran⟩ : Reading)
        = Reading.run host ⟨s.mode, s.pythonLines, s.awaitingAlpine, s.ran⟩ command := by
  have hwork : s.work host = some (s.runLine host command) := by simp only [work, hworker]
  have hevents : s.events host .work = runEvents host s.ran s.pythonLines command := by
    simp only [events, hworker]
  have hfirst : ∀ {es s'}, Settles host (s.runLine host command) es s' →
      Settles host s (runEvents host s.ran s.pythonLines command ++ es) s' := by
    intro es s' h
    rw [← hevents]
    exact .next hwork h
  cases houtcome : outcome host s.ran s.pythonLines command with
  | block =>
      have hrun : s.runLine host command = { s with
          ran := s.ran ++ [command], pythonLines := s.pythonLines ++ [command.1],
          worker := .extended } := by simp only [runLine, houtcome]
      refine ⟨{ s with
        ran := s.ran ++ [command], pythonLines := s.pythonLines ++ [command.1], busy := false,
        worker := .finishing }, fun h => hfirst ?_, rfl, rfl, rfl, rfl, rfl, rfl, ?_, ?_⟩
      · rw [hrun]
        exact .quiet rfl rfl h
      · cases hawaiting : s.awaitingAlpine <;> simp [hnoalpine]
      · simp only [Reading.run, houtcome]
  | command =>
      have hrun : s.runLine host command = { s with
          ran := s.ran ++ [command]
          awaitingAlpine := s.gateAfter host command
          startAlpineAfterCommand := s.awaitingAlpine && !s.gateAfter host command
          worker := .finishing } := by
        simp only [runLine, houtcome]
        split
        · rename_i hraises
          obtain ⟨hgate, hstart⟩ := raised_gate hnoalpine command hraises
          rw [hgate]
          rw [hgate] at hstart
          rw [← hstart]
        · rename_i hraises
          exact rendered_gate hnoalpine command .finishing (eq_false_of_ne_true hraises)
      refine ⟨_, fun h => hfirst (hrun ▸ h), rfl, rfl, rfl, rfl, rfl, rfl, rfl, ?_⟩
      simp only [Reading.run, houtcome]
      rfl
  | source =>
      by_cases hraises : host.raises (s.ran ++ [command]) = true
      · obtain ⟨hgate, hstart⟩ := raised_gate (s := s) hnoalpine command hraises
        have hrun : s.runLine host command = { s with
            ran := s.ran ++ [command], worker := .finishing } := by
          simp only [runLine, houtcome, hraises, if_true]
        refine ⟨_, fun h => hfirst (hrun ▸ h), rfl, rfl, rfl, rfl, rfl, rfl, ?_, ?_⟩
        · rw [hgate] at hstart
          exact hstart
        · simp only [Reading.run, houtcome, hraises, Bool.true_or, Bool.and_true, if_true]
      · have hfalse := eq_false_of_ne_true hraises
        have hrun : s.runLine host command = { s with
            ran := s.ran ++ [command]
            awaitingAlpine := s.gateAfter host command
            startAlpineAfterCommand := s.awaitingAlpine && !s.gateAfter host command
            worker := .executed } := by
          simp only [runLine, houtcome, hfalse, Bool.false_eq_true, if_false]
          exact rendered_gate hnoalpine command .executed hfalse
        refine ⟨{ s with
          ran := s.ran ++ [command]
          awaitingAlpine := s.gateAfter host command
          startAlpineAfterCommand := s.awaitingAlpine && !s.gateAfter host command
          pythonLines := []
          worker := .finishing }, fun h => hfirst ?_, rfl, rfl, rfl, rfl, rfl, rfl, rfl, ?_⟩
        · rw [hrun]
          exact .quiet rfl rfl h
        · simp only [Reading.run, houtcome, hfalse, Bool.false_eq_true, if_false]
          rw [gateAfter, hfalse]

/-- A queued command line runs, and nothing else. -/
theorem settles_queued (host : Host) {s : Console} {command : Command} (hinput : s.input = .idle)
    (hworker : s.worker = .waiting) (hqueue : s.commandQueue = [command])
    (hstdin : s.stdinQueue = []) (hnoalpine : s.startAlpineAfterCommand = false)
    (hgate : s.awaitingAlpine = true → s.mode = .shell) :
    ∃ s', Settles host s
        (runEvents host s.ran s.pythonLines command ++
          if s.awaitingAlpine = true ∧ (s.reading.run host command).gate = false then
            alpineEvents host (s.ran ++ [command])
          else []) s'
      ∧ Clean s' ∧ s'.typed = s.typed ∧ s'.reading = s.reading.run host command := by
  have hreading : s.reading = ⟨s.mode, s.pythonLines, s.awaitingAlpine, s.ran⟩ := by
    rw [reading, hworker]
    rfl
  have hdequeue : s.work host
      = some { s with commandQueue := [], worker := .dequeued command } := by
    simp only [work, hworker, hqueue]
  have hquiet : s.events host .work = [] := by simp only [events, hworker]
  obtain ⟨r, hrun, hr, hinput', hqueue', hstdin', htyped', hran', hstart', hreading'⟩ :=
    settles_run host command
      (s := { s with commandQueue := [], worker := .running command, busy := true })
      rfl hnoalpine
  rw [hreading]
  have hmode : r.mode = s.mode := (congrArg Reading.mode hreading').trans (Reading.run_mode ..)
  have hafter : r.awaitingAlpine = (Reading.run host
      ⟨s.mode, s.pythonLines, s.awaitingAlpine, s.ran⟩ command).gate :=
    congrArg Reading.gate hreading'
  have hshell : r.awaitingAlpine = true ∨ r.startAlpineAfterCommand = true → r.mode = .shell := by
    intro h
    rw [hmode]
    refine hgate ?_
    by_contra hnogate
    have hfalse : s.awaitingAlpine = false := eq_false_of_ne_true hnogate
    rw [hafter, Reading.run_gate hfalse] at h
    rw [hstart', hfalse] at h
    exact h.elim Bool.false_ne_true Bool.false_ne_true
  have hstarts : r.startAlpineAfterCommand = true ↔ s.awaitingAlpine = true ∧ (Reading.run host
      ⟨s.mode, s.pythonLines, s.awaitingAlpine, s.ran⟩ command).gate = false := by
    rw [hstart', ← hafter, Bool.and_eq_true, Bool.not_eq_true']
  obtain ⟨s', hsettles, hclean, htyped, hend⟩ := settles_finishing host (hinput'.trans hinput) hr
    hqueue' (hstdin'.trans hstdin) hshell
  simp only [hstarts] at hsettles
  rw [hran'] at hsettles
  exact ⟨s', .quiet hdequeue hquiet (.quiet rfl rfl (hrun hsettles)), hclean,
    htyped.trans htyped', hend.trans hreading'⟩

/-! ## A line typed at rest -/

theorem gate_of_enterRepl {busy awaiting : Bool} {mode : Mode} {pythonLines : List Line}
    (h : verdict busy awaiting mode pythonLines line = .enterRepl) : awaiting = false := by
  dsimp only [verdict] at h
  split_ifs at h with _ _ hgate _ _
  exact eq_false_of_ne_true hgate

/-- What becomes of a line, up to the history. -/
theorem handle_verdict (host : Host) (s : Console) (line : Line) :
    ∃ history, s.handle host line =
      let s := { s with history := history }
      match verdict s.busy s.awaitingAlpine s.mode s.pythonLines line with
      | .ignore => s
      | .queue mode => { s with commandQueue := s.commandQueue ++ [(line, mode)] }
      | .enterRepl => { s with mode := .repl }
      | .enterAlpine => s.enterLinuxPty host
      | .leaveRepl => { s with mode := .shell, pythonLines := [] } := by
  obtain ⟨history, hhistory⟩ := historyRecord_eq s (strip line)
  refine ⟨history, ?_⟩
  rw [← hhistory]
  rfl

/-- The session does with the line what the sequential console does. -/
theorem settles_line (host : Host) {s : Console} (hclean : Clean { s with input := .idle })
    (line : Line) :
    ∃ s' es, Settles host ({ s.handle host line with input := .idle } : Console) es s'
      ∧ s.handleEvents host line ++ es = s.reading.events host line
      ∧ Clean s' ∧ s'.typed = s.typed ∧ s'.reading = s.reading.read host line := by
  obtain ⟨⟨-, hworker, hqueue⟩, hidle, hstdin, hnoalpine, hgate⟩ := hclean
  dsimp only at hworker hqueue hidle hstdin hnoalpine hgate
  have hreading : s.reading = ⟨s.mode, s.pythonLines, s.awaitingAlpine, s.ran⟩ := by
    rw [reading, hworker]
    rfl
  obtain ⟨history, hhandle⟩ := handle_verdict host s line
  dsimp only at hhandle
  rw [hreading]
  cases hverdict : verdict false s.awaitingAlpine s.mode s.pythonLines line with
  | ignore =>
      simp only [hidle, hverdict] at hhandle
      simp only [hhandle, handleEvents, Reading.events, Reading.read, hidle, hverdict]
      refine ⟨_, [], .rest ?_, rfl, ⟨⟨rfl, hworker, hqueue⟩, rfl, hstdin, hnoalpine, hgate⟩, rfl,
        hreading⟩
      simp only [work, hworker, hqueue]
  | queue mode =>
      simp only [hidle, hverdict] at hhandle
      simp only [hhandle, handleEvents, Reading.events, Reading.read, hidle, hverdict]
      obtain ⟨s', hsettles, hclean, htyped, hend⟩ := settles_queued host
        (s := { s with
          busy := false, history := history, input := .idle,
          commandQueue := s.commandQueue ++ [(line, mode)] })
        rfl hworker (congrArg (· ++ [(line, mode)]) hqueue) hstdin hnoalpine hgate
      have hsame : ({ s with
          busy := false, history := history, input := .idle,
          commandQueue := s.commandQueue ++ [(line, mode)] } : Console).reading
            = ⟨s.mode, s.pythonLines, s.awaitingAlpine, s.ran⟩ := hreading
      rw [hsame] at hsettles hend
      exact ⟨s', _, hsettles, List.nil_append _, hclean, htyped, hend⟩
  | enterRepl =>
      have hopen := gate_of_enterRepl hverdict
      simp only [hidle, hverdict] at hhandle
      simp only [hhandle, handleEvents, Reading.events, Reading.read, hidle, hverdict]
      refine ⟨_, [], .rest ?_, rfl, ⟨⟨rfl, hworker, hqueue⟩, rfl, hstdin, hnoalpine, fun h => ?_⟩,
        rfl, ?_⟩
      · simp only [work, hworker, hqueue]
      · cases hopen.symm.trans h
      · rw [reading, hworker]
        rfl
  | enterAlpine =>
      have hshell := mode_of_enterAlpine hverdict
      simp only [hidle, hverdict] at hhandle
      replace hhandle := hhandle.trans (enterLinuxPty_shell hshell)
      simp only [hhandle, handleEvents, Reading.events, Reading.read, hidle, hverdict]
      refine ⟨_, [], .rest ?_, List.append_nil _,
        ⟨⟨rfl, hworker, hqueue⟩, rfl, hstdin, hnoalpine, hgate⟩, rfl, hreading⟩
      simp only [work, hworker, hqueue]
  | leaveRepl =>
      simp only [hidle, hverdict] at hhandle
      simp only [hhandle, handleEvents, Reading.events, Reading.read, hidle, hverdict]
      refine ⟨_, [], .rest ?_, rfl, ⟨⟨rfl, hworker, hqueue⟩, rfl, hstdin, hnoalpine, fun _ => rfl⟩,
        rfl, ?_⟩
      · simp only [work, hworker, hqueue]
      · rw [reading, hworker]
        rfl

/-! ## The session at rest -/

/-- Alpine is started after a command only on the way from it, and the
setup gate is a gate of the shell. -/
structure Gated (s : Console) : Prop where
  starts : s.startAlpineAfterCommand = true → s.worker.active = true ∨ s.worker = .cleared
  gate : s.awaitingAlpine = true → s.mode = .shell

theorem gated_handle (host : Host) (h : Gated s) (line : Line) : Gated (s.handle host line) := by
  obtain ⟨history, hhandle⟩ := handle_verdict host s line
  dsimp only at hhandle
  rw [hhandle]
  cases hverdict : verdict s.busy s.awaitingAlpine s.mode s.pythonLines line with
  | ignore => exact ⟨h.starts, h.gate⟩
  | queue mode => exact ⟨h.starts, h.gate⟩
  | enterRepl =>
      have hopen := gate_of_enterRepl hverdict
      exact ⟨h.starts, fun hawaiting => by cases hopen.symm.trans hawaiting⟩
  | enterAlpine =>
      dsimp only
      rw [enterLinuxPty_shell (s := { s with history := history }) (mode_of_enterAlpine hverdict)]
      exact ⟨h.starts, h.gate⟩
  | leaveRepl => exact ⟨h.starts, fun _ => rfl⟩

theorem gated_work (h : Gated s) (hs : s.work host = some s') : Gated s' := by
  cases worked_of_work hs with
  | dequeue hworker _ =>
      refine ⟨fun hstarts => ?_, h.gate⟩
      have hactive := h.starts hstarts
      rw [hworker] at hactive
      exact hactive.elim (fun h => by cases h) (fun h => by cases h)
  | setBusy _ => exact ⟨fun _ => .inl rfl, h.gate⟩
  | @run command _ =>
      obtain ⟨pythonLines, awaiting, alpine, worker, hrun, hpc⟩ := runLine_eq host s command
      have hactive : worker.active = true := by rcases hpc with rfl | rfl | rfl <;> rfl
      have hgate : (s.runLine host command).awaitingAlpine = true → s.awaitingAlpine = true := by
        intro hawaiting
        by_contra hno
        have hfalse : s.awaitingAlpine = false := eq_false_of_ne_true hno
        have hkept : (s.runLine host command).awaitingAlpine = false := by
          rw [runLine]
          split
          · exact hfalse
          all_goals
            split
            · exact hfalse
            · simp [rendered, hfalse]
        cases hkept.symm.trans hawaiting
      have hmode : (s.runLine host command).mode = s.mode := by rw [hrun]
      refine ⟨fun _ => ?_, fun hawaiting => hmode.trans (h.gate (hgate hawaiting))⟩
      rw [hrun]
      exact .inl hactive
  | await _ => exact ⟨fun _ => .inl rfl, h.gate⟩
  | clearBlock _ => exact ⟨fun _ => .inl rfl, h.gate⟩
  | clearBusy _ => exact ⟨fun _ => .inr rfl, h.gate⟩
  | startAlpine _ _ =>
      rw [enterLinuxPty]
      split
      · exact ⟨(fun h => by cases h), fun _ => rfl⟩
      · exact ⟨(fun h => by cases h), h.gate⟩
  | drain hworker =>
      have hnoalpine : ¬s.startAlpineAfterCommand = true := by
        intro hstarts
        simp only [work, hworker, hstarts, if_true] at hs
        have hpc := congrArg Console.worker (Option.some.inj hs)
        rw [enterLinuxPty] at hpc
        split at hpc <;> cases hpc
      exact ⟨fun hstarts => absurd hstarts hnoalpine, h.gate⟩
  | @resubmit line rest hworker =>
      have hnoalpine : ¬s.startAlpineAfterCommand = true := by
        intro hstarts
        have hactive := h.starts hstarts
        rw [hworker] at hactive
        exact hactive.elim (fun h => by cases h) (fun h => by cases h)
      have hgated : Gated (s.submitLine host line) := by
        rw [submitLine]
        split
        · exact ⟨h.starts, h.gate⟩
        · exact gated_handle host h line
      have hkept : (s.submitLine host line).startAlpineAfterCommand
          = s.startAlpineAfterCommand := by
        obtain ⟨history, queued, mode, pythonLines, hhandle, -⟩ := handle_eq host s line
        rw [submitLine]
        split
        · rfl
        · rw [hhandle]
      exact ⟨fun hstarts => absurd (hkept.symm.trans hstarts) hnoalpine, hgated.gate⟩
  | wait hworker =>
      refine ⟨fun hstarts => ?_, h.gate⟩
      have hactive := h.starts hstarts
      rw [hworker] at hactive
      exact hactive.elim (fun h => by cases h) (fun h => by cases h)

theorem gated_step (a : ConsoleStep) (h : Gated s) (hs : step host s a = some s') : Gated s' := by
  cases a with
  | type line =>
      rw [step] at hs
      split at hs
      · obtain rfl := Option.some.inj hs
        exact ⟨h.starts, h.gate⟩
      · cases hs
  | submit =>
      rw [step] at hs
      split at hs
      · cases hs
      · obtain rfl := Option.some.inj hs
        exact ⟨h.starts, h.gate⟩
      · obtain rfl := Option.some.inj hs
        have hgated := gated_handle host h ‹_›
        exact ⟨hgated.starts, hgated.gate⟩
  | work => exact gated_work h hs

/-- Nothing is left over in a session at rest with nothing typed ahead. -/
theorem clean_of_reach {awaiting : Bool} (h : Reach (step host) Free (start awaiting) s)
    (hrest : s.AtRest) (hstdin : s.stdinQueue = []) : Clean s := by
  have hbusy : BusyWhileActive s :=
    h.invariant BusyWhileActive nofun fun _ a _ hs _ hnext => busy_step a hs hnext
  have hgated : Gated s := h.invariant Gated ⟨nofun, fun _ => rfl⟩
    fun _ a _ hs _ hnext => gated_step a hs hnext
  have hworker := hrest.2.1
  refine ⟨hrest, hbusy.idle (by rw [hworker]; rfl), hstdin, eq_false_of_ne_true fun hstarts => ?_,
    hgated.gate⟩
  have hactive := hgated.starts hstarts
  rw [hworker] at hactive
  exact hactive.elim (fun h => by cases h) (fun h => by cases h)

/-! ## Runs of lines typed at rest -/

/-- The session is at rest, has a line in hand, or is on its way to rest. -/
inductive Along (host : Host) (r₀ : Reading) (typed₀ : List Line) :
    Console × List ConsoleEvent → Prop
  | checked {s : Console} {es : List ConsoleEvent} {lines : List Line} {line : Line} : Clean s →
      s.typed = typed₀ ++ lines → s.reading = r₀.readAll host lines →
      es = r₀.eventsAll host lines →
      Along host r₀ typed₀
        ({ s with input := .checked line false, typed := s.typed ++ [line] }, es)
  | working {s s' : Console} {es es' : List ConsoleEvent} {lines : List Line} : s.input = .idle →
      Settles host s es' s' → Clean s' → s'.typed = typed₀ ++ lines →
      s'.reading = r₀.readAll host lines → es ++ es' = r₀.eventsAll host lines →
      Along host r₀ typed₀ (s, es)

theorem along_of_clean {r₀ : Reading} {typed₀ lines : List Line} (h : Clean s)
    (htyped : s.typed = typed₀ ++ lines) (hreading : s.reading = r₀.readAll host lines)
    (hes : es = r₀.eventsAll host lines) : Along host r₀ typed₀ (s, es) := by
  have hnone : s.work host = none := by
    obtain ⟨-, hworker, hqueue⟩ := h.rest
    simp only [work, hworker, hqueue]
  exact .working h.rest.1 (.rest hnone) h htyped hreading ((List.append_nil _).trans hes)

/-- A line in hand is treated as the sequential console treats it. -/
theorem along_submit {r₀ : Reading} {typed₀ lines : List Line} (h : Clean s)
    (htyped : s.typed = typed₀ ++ lines) (hreading : s.reading = r₀.readAll host lines)
    (hes : es = r₀.eventsAll host lines) (line : Line) :
    Along host r₀ typed₀
      ({ handle host { s with
            input := .checked line false, typed := s.typed ++ [line] } line with input := .idle },
        es ++ handleEvents host
          { s with input := .checked line false, typed := s.typed ++ [line] } line) := by
  have hclean : Clean { s with input := .idle, typed := s.typed ++ [line] } :=
    ⟨⟨rfl, h.rest.2⟩, h.idle, h.drained, h.noAlpine, h.gate⟩
  obtain ⟨s', es', hsettles, hevents, hclean', htyped', hreading'⟩ := settles_line host
    (s := { s with input := .checked line false, typed := s.typed ++ [line] }) hclean line
  have hend : s'.typed = typed₀ ++ (lines ++ [line]) := by
    rw [htyped', htyped, List.append_assoc]
  refine .working rfl hsettles hclean' hend ?_ ?_
  · rw [hreading', Reading.readAll_snoc, ← hreading]
    rfl
  · rw [List.append_assoc, hevents, Reading.eventsAll_snoc, ← hreading, hes]
    rfl

theorem along_step {r₀ : Reading} {typed₀ : List Line} {t t' : Console × List ConsoleEvent}
    {a : ConsoleStep} (h : Along host r₀ typed₀ t) (hok : OneAtATime t a)
    (hstep : traced host t a = some t') : Along host r₀ typed₀ t' := by
  obtain ⟨s₁, hs₁, rfl⟩ := Option.map_eq_some_iff.mp hstep
  cases h with
  | @checked s es lines line hclean htyped hreading hes =>
      cases a with
      | type line' => cases hs₁
      | submit =>
          obtain rfl := Option.some.inj hs₁
          exact along_submit hclean htyped hreading hes line
      | work =>
          obtain ⟨-, hworker, hqueue⟩ := hclean.rest
          simp only [step, work, hworker, hqueue, reduceCtorEq] at hs₁
  | @working s s' es es' lines hinput hsettles hclean htyped hreading hes =>
      cases a with
      | type line' =>
          obtain ⟨rfl, rfl⟩ := hsettles.of_atRest hok
          simp only [step, hinput] at hs₁
          obtain rfl := Option.some.inj hs₁
          have hchecked : Along host r₀ typed₀
              ({ s' with
                  input := .checked line' false, typed := s'.typed ++ [line'] }, es ++ []) :=
            .checked hclean htyped hreading hes
          rwa [← hclean.idle] at hchecked
      | submit => simp only [step, hinput, reduceCtorEq] at hs₁
      | work =>
          obtain ⟨es₁, rfl, hsettles₁⟩ := hsettles.of_work hs₁
          refine .working ((input_work (worked_of_work hs₁)).trans hinput) hsettles₁ hclean htyped
            hreading ?_
          rw [List.append_assoc, hes]

/-- **Lines typed at rest** cause the events of the sequential console, and
leave the session as it is then. -/
theorem events_of_run {s₀ : Console} (hclean : Clean s₀)
    (h : Reach (traced host) OneAtATime (s₀, []) (s, es)) (hrest : s.AtRest) {lines : List Line}
    (htyped : s.typed = s₀.typed ++ lines) :
    es = s₀.reading.eventsAll host lines ∧ s.reading = s₀.reading.readAll host lines
      ∧ Clean s := by
  have halong : Along host s₀.reading s₀.typed (s, es) := h.invariant
    (Along host s₀.reading s₀.typed)
    (along_of_clean hclean (show _ = _ ++ [] from (List.append_nil _).symm) rfl rfl)
    fun _ _ _ h hok hstep => along_step h hok hstep
  cases halong with
  | checked _ _ _ _ => cases hrest.1
  | working _ hsettles hclean' htyped' hreading hes =>
      obtain ⟨rfl, rfl⟩ := hsettles.of_atRest hrest
      obtain rfl := List.append_cancel_left (htyped'.symm.trans htyped)
      exact ⟨(List.append_nil _).symm.trans hes, hreading, hclean'⟩

/-- The worker gets there. -/
theorem Settles.reach (h : Settles host s es s') {t₀ : Console × List ConsoleEvent}
    {before : List ConsoleEvent} (ht : Reach (traced host) OneAtATime t₀ (s, before)) :
    Reach (traced host) OneAtATime t₀ (s', before ++ es) := by
  induction h generalizing before with
  | rest _ =>
      rw [List.append_nil]
      exact ht
  | @next s s₁ s' es hwork _ ih =>
      have hone : traced host (s, before) .work = some (s₁, before ++ s.events host .work) :=
        congrArg (Option.map _) hwork
      rw [← List.append_assoc]
      exact ih (.next ht (show OneAtATime _ .work from trivial) hone)

/-- There is such a run for any lines. -/
theorem exists_run (host : Host) {s₀ : Console} (hclean : Clean s₀) (lines : List Line) :
    ∃ s es, Reach (traced host) OneAtATime (s₀, []) (s, es) ∧ s.AtRest
      ∧ s.typed = s₀.typed ++ lines := by
  have hsnoc : ∀ lines, ∃ s es, Reach (traced host) OneAtATime (s₀, []) (s, es) ∧ Clean s
      ∧ s.typed = s₀.typed ++ lines := by
    intro lines
    induction lines using List.reverseRecOn with
    | nil => exact ⟨s₀, [], .start, hclean, (List.append_nil _).symm⟩
    | append_singleton lines line ih =>
        obtain ⟨s, es, hrun, hclean, htyped⟩ := ih
        have hafter : Clean { s with input := .idle, typed := s.typed ++ [line] } :=
          ⟨⟨rfl, hclean.rest.2⟩, hclean.idle, hclean.drained, hclean.noAlpine, hclean.gate⟩
        obtain ⟨s', es', hsettles, -, hclean', htyped', -⟩ := settles_line host
          (s := { s with input := .checked line false, typed := s.typed ++ [line] }) hafter line
        have htype : traced host (s, es) (.type line) = some
            ({ s with input := .checked line false, typed := s.typed ++ [line] }, es ++ []) := by
          simp only [traced, step, hclean.rest.1, hclean.idle, Option.map_some, events]
        have htyping := Reach.next hrun
          (show OneAtATime (s, es) (.type line) from hclean.rest) htype
        have hsubmitting := Reach.next htyping (show OneAtATime _ .submit from trivial) rfl
        refine ⟨s', _, hsettles.reach hsubmitting, hclean', ?_⟩
        rw [htyped', htyped, List.append_assoc]
  obtain ⟨s, es, hrun, hclean, htyped⟩ := hsnoc lines
  exact ⟨s, es, hrun, hclean.rest, htyped⟩

end Console

end Zmux
