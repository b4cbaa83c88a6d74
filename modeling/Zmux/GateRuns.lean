import Mathlib.Tactic.SplitIfs
import Zmux.SetupGate

/-!
# Runs of the setup gate

What the setup gate promises is `SetupGate.Kept`: as long as it is closed
the worker starts `linux-setup` and nothing else, the REPL is not entered,
and a line that was typed while the setup ran is never started once the
gate is open.

Most steps add nothing to what may be executed (`SetupGate.Quiet`). The
others are the submission of a line, which the closed gate checks
(`handle_closed`), and the moves of the worker. `SetupGate.Drained` is the
condition on these under which the promise is kept in every run
(`gate_kept`): when the gate opens, and when Alpine is started after it,
nothing that was typed during the setup is queued. The code does not see
to it (`stale_line_runs`).
-/

namespace Zmux

namespace RunnerPc

/-- The busy flag may be set. -/
def active : RunnerPc → Bool
  | .running _ | .executing _ | .extended | .executed | .finishing | .judged _ => true
  | _ => false

/-- The command line in the hands of the worker. -/
def command : RunnerPc → List TypedCommand
  | .dequeued c | .running c => [c]
  | _ => []

/-- The lines in the hands of the worker that are yet to be started. -/
def lines : RunnerPc → List TypedLine
  | .dequeued c => [c.1]
  | .resubmitting leftovers => leftovers
  | _ => []

end RunnerPc

namespace SetupGate

variable {s s' : SetupGate} {line : TypedLine} {answers : StepAnswers}

def IsSetup (c : TypedCommand) : Prop :=
  strip c.1.text = "linux-setup".toList ∧ c.2 = .shell

/-- The promise of the gate. -/
structure Kept (s : SetupGate) : Prop where
  onlySetup : ∀ r ∈ s.ran, r.atGate = true → IsSetup (r.line, r.mode)
  noRepl : s.awaitingAlpine = true → s.mode = .shell
  noStale : ∀ r ∈ s.ran, r.line.ahead = true → r.atGate = true

/-- The step opens the gate. -/
def opens (s : SetupGate) : SetupStep → Bool
  | .work answers =>
    s.awaitingAlpine && match s.runner with
      | .executing _ => answers.execution = .returned true
      | _ => false
  | _ => false

/-- `_finish_command` starts Alpine. -/
def startsAlpine (s : SetupGate) : SetupStep → Bool
  | .work _ => s.startAlpineAfterCommand && s.runner = .cleared false
  | _ => false

/-- Nothing that was typed during the setup is left when the gate opens
and Alpine is started. -/
def Drained (s : SetupGate) (a : SetupStep) : Prop :=
  (s.opens a = true → ∀ c ∈ s.commandQueue, c.1.ahead = false)
    ∧ (s.startsAlpine a = true → ∀ l ∈ s.stdinQueue, l.ahead = false)

instance (s : SetupGate) (a : SetupStep) : Decidable (Drained s a) :=
  inferInstanceAs (Decidable (_ ∧ _))

/-! ## What the operations change -/

theorem enterLinuxPty_eq (entering : Entering) (s : SetupGate) :
    ∃ mode pty, s.enterLinuxPty entering = { s with mode := mode, pty := pty }
      ∧ (s.mode = .shell → mode = .shell) := by
  unfold enterLinuxPty
  split
  · exact ⟨s.mode, s.pty, rfl, id⟩
  · cases entering with
    | refused => exact ⟨s.mode, s.pty, rfl, id⟩
    | failed => exact ⟨.shell, s.pty, rfl, fun _ => rfl⟩
    | opened => exact ⟨.shell, true, rfl, fun _ => rfl⟩

theorem recorded_eq (s : SetupGate) (line : TypedLine) :
    ∃ history historyIndex,
      (if strip line.text = [] then s else s.historyRecord (strip line.text))
        = { s with history := history, historyIndex := historyIndex } := by
  split
  · exact ⟨s.history, s.historyIndex, rfl⟩
  · exact ⟨_, _, rfl⟩

/-- All that handling a line can change. -/
theorem handle_eq (entering : Entering) (s : SetupGate) (line : TypedLine) :
    ∃ history historyIndex queued mode pythonLines pty, s.handle entering line =
      { s with
        history := history
        historyIndex := historyIndex
        commandQueue := s.commandQueue ++ queued
        mode := mode
        pythonLines := pythonLines
        pty := pty }
      ∧ ∀ c ∈ queued, c.1 = line := by
  obtain ⟨history, index, hrecord⟩ := recorded_eq s line
  unfold handle
  simp only [hrecord]
  cases s.verdictOn line.text with
  | ignore => exact ⟨history, index, [], s.mode, s.pythonLines, s.pty, by simp, by simp⟩
  | queue mode =>
      exact ⟨history, index, [(line, mode)], s.mode, s.pythonLines, s.pty, rfl, by simp⟩
  | enterRepl => exact ⟨history, index, [], .repl, s.pythonLines, s.pty, by simp, by simp⟩
  | enterAlpine =>
      obtain ⟨mode, pty, henter, _⟩ :=
        enterLinuxPty_eq entering { s with history := history, historyIndex := index }
      exact ⟨history, index, [], mode, s.pythonLines, pty, by simp [henter], by simp⟩
  | leaveRepl => exact ⟨history, index, [], .shell, [], s.pty, by simp [leaveRepl], by simp⟩

/-- The closed gate lets `linux-setup` pass. -/
theorem verdict_closed {busy : Bool} {mode : Mode} (line : Line) :
    verdict busy true mode [] line = .ignore
      ∨ verdict busy true mode [] line = .queue .shell
        ∧ strip line = "linux-setup".toList := by
  dsimp only [verdict]
  split_ifs with _ hblock _ hsetup
  · exact absurd rfl hblock
  · exact Or.inl rfl
  · exact Or.inr ⟨rfl, hsetup⟩
  · exact Or.inl rfl
  all_goals contradiction

theorem handle_closed (entering : Entering) (hclosed : s.awaitingAlpine = true)
    (hblock : s.pythonLines = []) (line : TypedLine) :
    ∃ history historyIndex queued, s.handle entering line =
      { s with
        history := history
        historyIndex := historyIndex
        commandQueue := s.commandQueue ++ queued }
      ∧ ∀ c ∈ queued, IsSetup c := by
  obtain ⟨history, index, hrecord⟩ := recorded_eq s line
  have hverdict : s.verdictOn line.text = verdict s.busy true s.mode [] line.text := by
    rw [verdictOn, hclosed, hblock]
  unfold handle
  simp only [hrecord, hverdict]
  rcases @verdict_closed s.busy s.mode line.text with h | ⟨h, hsetup⟩
  · rw [h]
    exact ⟨history, index, [], by simp, by simp⟩
  · rw [h]
    exact ⟨history, index, [(line, .shell)], rfl, by simpa [IsSetup] using hsetup⟩

/-! ## Steps that add nothing -/

/-- Everything that may be started without passing the gate again. -/
def commands (s : SetupGate) : List TypedCommand := s.commandQueue ++ s.runner.command

def lines (s : SetupGate) : List TypedLine := s.commandQueue.map Prod.fst ++ s.runner.lines

structure Quiet (s s' : SetupGate) : Prop where
  ran : s'.ran = s.ran
  awaiting : s'.awaitingAlpine = s.awaitingAlpine
  startAlpine : s'.startAlpineAfterCommand = s.startAlpineAfterCommand
  gated : s'.gated = s.gated
  busy : s'.busy = true → s.busy = true
  active : s'.busy = true → s.runner.active = true → s'.runner.active = true
  writer : ∀ l busy rest, s'.writer = .submitting l busy rest → s.writer = .submitting l busy rest
  stdin : s'.stdinQueue ⊆ s.stdinQueue
  lines : s'.lines ⊆ s.lines
  commands : s'.commands ⊆ s.commands
  mode : s.mode = .shell → s'.mode = .shell
  block : s.pythonLines = [] → s'.pythonLines = []

theorem Quiet.refl (s : SetupGate) : Quiet s s where
  ran := rfl
  awaiting := rfl
  startAlpine := rfl
  gated := rfl
  busy h := h
  active _ h := h
  writer _ _ _ h := h
  stdin := List.Subset.refl _
  lines := List.Subset.refl _
  commands := List.Subset.refl _
  mode h := h
  block h := h

theorem quiet_enterLinuxPty (entering : Entering) (s : SetupGate) :
    Quiet s (s.enterLinuxPty entering) := by
  obtain ⟨mode, pty, henter, hmode⟩ := enterLinuxPty_eq entering s
  rw [henter]
  exact { Quiet.refl s with mode := hmode }

/-- The input thread is not in `_submit_line` any more. -/
theorem quiet_writer {pc : WriterPc} {text : Line}
    (h : ∀ l busy rest, pc ≠ .submitting l busy rest) :
    Quiet s { s with lineBuffer := text, writer := pc } :=
  { Quiet.refl s with writer := fun l busy rest hwriter => absurd hwriter (h l busy rest) }

theorem quiet_handleKey (s : SetupGate) (char : Char) : Quiet s (s.handleKey char) := by
  unfold handleKey
  split_ifs
  · exact { Quiet.refl s with }
  · exact { Quiet.refl s with block := fun _ => rfl }
  · exact { Quiet.refl s with mode := fun _ => rfl, block := fun _ => rfl }
  · exact Quiet.refl s
  · exact { Quiet.refl s with }
  · exact { Quiet.refl s with }
  · exact Quiet.refl s

/-- The worker goes on with nothing in its hands. -/
theorem quiet_runner {pc : RunnerPc} {flag : Bool} (hcommand : pc.command = [])
    (hlines : pc.lines = [])
    (hactive : s.busy = true → s.runner.active = true → pc.active = true) :
    Quiet s { s with interrupt := flag, runner := pc } :=
  { Quiet.refl s with
    active := hactive
    lines := by
      simp only [lines, hlines, List.append_nil]
      exact List.subset_append_left ..
    commands := by
      simp only [commands, hcommand, List.append_nil]
      exact List.subset_append_left .. }

/-- It clears the busy flag as well. -/
theorem quiet_clearBusy {pc : RunnerPc} (hcommand : pc.command = []) (hlines : pc.lines = []) :
    Quiet s { s with busy := false, runner := pc } :=
  { quiet_runner hcommand hlines (s := { s with busy := false }) (fun h => nomatch h) with
    busy := fun h => nomatch h
    active := fun h => nomatch h }

theorem quiet_dequeue {c : TypedCommand} {rest : List TypedCommand} (hwaiting : s.runner = .waiting)
    (hqueue : s.commandQueue = c :: rest) :
    Quiet s { s with commandQueue := rest, runner := .dequeued c } :=
  { Quiet.refl s with
    active := fun _ hactive => by
      rw [hwaiting] at hactive
      cases hactive
    lines := by
      intro l hl
      simp only [lines, RunnerPc.lines, List.mem_append, hqueue, List.map_cons,
        List.mem_cons] at hl ⊢
      tauto
    commands := by
      intro d hd
      simp only [commands, RunnerPc.command, List.mem_append, hqueue,
        List.mem_cons] at hd ⊢
      tauto }

/-! ## The invariant -/

/-- Alpine was not started since the gate was closed. -/
def Unsettled (s : SetupGate) : Prop :=
  s.awaitingAlpine = true ∨ s.startAlpineAfterCommand = true

structure Inv (s : SetupGate) : Prop where
  ran : ∀ r ∈ s.ran, (r.atGate = true → IsSetup (r.line, r.mode))
    ∧ (r.line.ahead = true → r.atGate = true)
  busy : s.busy = true → s.runner.active = true
  /-- New lines typed ahead come only from a command of the gate. -/
  gated : s.busy = true → s.gated = true → s.Unsettled
  writer : ∀ l busy rest, s.writer = .submitting l busy rest → l.ahead = true →
    busy = true ∧ s.Unsettled
  stdin : ∀ l ∈ s.stdinQueue, l.ahead = true → s.Unsettled
  lines : ∀ l ∈ s.lines, l.ahead = true → s.awaitingAlpine = true
  mode : s.awaitingAlpine = true → s.mode = .shell
  block : s.awaitingAlpine = true → s.pythonLines = []
  setup : s.awaitingAlpine = true → ∀ c ∈ s.commands, IsSetup c

theorem Inv.kept (h : Inv s) : Kept s where
  onlySetup r hr := (h.ran r hr).1
  noRepl := h.mode
  noStale r hr := (h.ran r hr).2

theorem inv_start (awaitingAlpine : Bool) : Inv (start awaitingAlpine) where
  ran _ hr := nomatch hr
  busy hbusy := nomatch hbusy
  gated hbusy := nomatch hbusy
  writer _ _ _ hwriter := nomatch hwriter
  stdin _ hl := nomatch hl
  lines _ hl := nomatch hl
  mode _ := rfl
  block _ := rfl
  setup _ _ hc := nomatch hc

theorem Quiet.inv (hq : Quiet s s') (h : Inv s) : Inv s' where
  ran := hq.ran ▸ h.ran
  busy hbusy := hq.active hbusy (h.busy (hq.busy hbusy))
  gated hbusy hgated := by
    rw [Unsettled, hq.awaiting, hq.startAlpine]
    exact h.gated (hq.busy hbusy) (hq.gated ▸ hgated)
  writer l busy rest hwriter hahead := by
    rw [Unsettled, hq.awaiting, hq.startAlpine]
    exact h.writer l busy rest (hq.writer l busy rest hwriter) hahead
  stdin l hl hahead := by
    rw [Unsettled, hq.awaiting, hq.startAlpine]
    exact h.stdin l (hq.stdin hl) hahead
  lines l hl hahead := hq.awaiting.trans (h.lines l (hq.lines hl) hahead)
  mode hclosed := hq.mode (h.mode (hq.awaiting.symm.trans hclosed))
  block hclosed := hq.block (h.block (hq.awaiting.symm.trans hclosed))
  setup hclosed c hc := h.setup (hq.awaiting.symm.trans hclosed) c (hq.commands hc)

/-! ## Steps that add something -/

theorem inv_check (h : Inv s) (rest : List Char) :
    Inv { s with writer := .submitting ⟨s.lineBuffer, s.busy && s.gated⟩ s.busy rest } :=
  { h with
    writer := by
      intro l busy rest hwriter hahead
      obtain ⟨rfl, rfl, _⟩ := WriterPc.submitting.inj hwriter
      obtain ⟨hbusy, hgated⟩ := Bool.and_eq_true_iff.mp hahead
      exact ⟨hbusy, h.gated hbusy hgated⟩ }

theorem inv_put (h : Inv s) (hline : line.ahead = true → s.Unsettled) :
    Inv { s with stdinQueue := s.stdinQueue ++ [line] } :=
  { h with
    stdin := by
      intro l hl hahead
      rcases List.mem_append.mp hl with hl | hl
      · exact h.stdin l hl hahead
      · obtain rfl := List.mem_singleton.mp hl
        exact hline hahead }

/-- A line typed ahead comes back only while the gate is closed. -/
theorem inv_handle (entering : Entering) (h : Inv s)
    (hline : line.ahead = true → s.awaitingAlpine = true) : Inv (s.handle entering line) := by
  cases hclosed : s.awaitingAlpine with
  | true =>
      obtain ⟨history, index, queued, hhandle, hsetup⟩ :=
        handle_closed entering hclosed (h.block hclosed) line
      rw [hhandle]
      exact { h with
        lines := fun _ _ _ => hclosed
        setup := by
          intro _ c hc
          simp only [commands, List.mem_append] at hc
          rcases hc with (hc | hc) | hc
          · exact h.setup hclosed c (List.mem_append_left _ hc)
          · exact hsetup c hc
          · exact h.setup hclosed c (List.mem_append_right _ hc) }
  | false =>
      have hopen : ¬ s.awaitingAlpine = true := Bool.eq_false_iff.mp hclosed
      obtain ⟨history, index, queued, mode, block, pty, hhandle, hqueued⟩ :=
        handle_eq entering s line
      rw [hhandle]
      exact { h with
        lines := by
          intro l hl hahead
          simp only [lines, List.map_append, List.mem_append] at hl
          rcases hl with (hl | hl) | hl
          · exact h.lines l (List.mem_append_left _ hl) hahead
          · obtain ⟨c, hc, rfl⟩ := List.mem_map.mp hl
            exact hline (hqueued c hc ▸ hahead)
          · exact h.lines l (List.mem_append_right _ hl) hahead
        mode := fun hgate => absurd hgate hopen
        block := fun hgate => absurd hgate hopen
        setup := fun hgate => absurd hgate hopen }

/-- The worker starts a command line. -/
theorem inv_run {c : TypedCommand} (h : Inv s) (hrunner : s.runner = .dequeued c) :
    Inv { s with
      busy := true
      interrupt := false
      gated := s.awaitingAlpine
      ran := s.ran ++ [⟨c.1, c.2, s.awaitingAlpine⟩]
      runner := .running c } :=
  { h with
    ran := by
      intro r hr
      rcases List.mem_append.mp hr with hr | hr
      · exact h.ran r hr
      · obtain rfl := List.mem_singleton.mp hr
        have hcommand : c ∈ s.commands := by simp [commands, hrunner, RunnerPc.command]
        have hlines : c.1 ∈ s.lines := by simp [lines, hrunner, RunnerPc.lines]
        exact ⟨fun hclosed => h.setup hclosed c hcommand, fun hahead => h.lines c.1 hlines hahead⟩
    busy := fun _ => rfl
    gated := fun _ hgated => Or.inl hgated
    lines := fun l hl => h.lines l (by
      simp only [lines, RunnerPc.lines, List.append_nil] at hl
      exact List.mem_append_left _ hl)
    setup := fun hclosed d hd => h.setup hclosed d (by
      simpa only [commands, hrunner, RunnerPc.command] using hd) }

theorem setup_word : ∀ c ∈ "linux-setup".toList, isSpace c = false := fun c hc => by
  have hword : "linux-setup".toList.all (fun c => !isSpace c) = true := by decide
  simpa using List.all_eq_true.mp hword c hc

theorem inv_runLine {c : TypedCommand} (answers : StepAnswers) (h : Inv s)
    (hrunner : s.runner = .running c) : Inv (s.runLine answers c) := by
  unfold runLine
  dsimp only
  split
  · exact (quiet_runner rfl rfl fun _ _ => rfl).inv h
  · rename_i hpython
    split
    · have hopen : ¬ s.awaitingAlpine = true := by
        intro hclosed
        obtain ⟨hsetup, hmode⟩ :=
          h.setup hclosed c (by simp [commands, hrunner, RunnerPc.command])
        refine hpython ⟨hmode, Or.inl ?_⟩
        rw [firstWord_of_strip hsetup setup_word]
        decide
      have hblock : Inv { s with pythonLines := s.pythonLines ++ [c.1.text] } :=
        { h with block := fun hclosed => absurd hclosed hopen }
      exact (quiet_runner rfl rfl fun _ _ => rfl).inv hblock
    · exact (quiet_runner rfl rfl fun _ _ => rfl).inv h

/-- The gate opens. -/
theorem inv_open {pc : RunnerPc} (h : Inv s) (hlines : pc.lines = [])
    (hactive : pc.active = true) (hdrained : ∀ c ∈ s.commandQueue, c.1.ahead = false) :
    Inv { s with
      awaitingAlpine := false
      startAlpineAfterCommand := true
      runner := pc } where
  ran := h.ran
  busy _ := hactive
  gated _ _ := Or.inr rfl
  writer l busy rest hwriter hahead := ⟨(h.writer l busy rest hwriter hahead).1, Or.inr rfl⟩
  stdin _ _ _ := Or.inr rfl
  lines l hl hahead := by
    simp only [lines, hlines, List.append_nil] at hl
    obtain ⟨c, hc, rfl⟩ := List.mem_map.mp hl
    rw [hdrained c hc] at hahead
    cases hahead
  mode hclosed := nomatch hclosed
  block hclosed := nomatch hclosed
  setup hclosed := nomatch hclosed

/-- `_finish_command` starts Alpine. -/
theorem inv_startAlpine (h : Inv s) (hrunner : s.runner = .cleared false)
    (hwriter : s.writer = .idle) (hdrained : ∀ l ∈ s.stdinQueue, l.ahead = false) :
    Inv { s with startAlpineAfterCommand := false, runner := .waiting } := by
  have hidle : ¬ s.busy = true := fun hbusy => by
    have hactive := h.busy hbusy
    rw [hrunner] at hactive
    cases hactive
  exact
  { h with
    busy := fun hbusy => absurd hbusy hidle
    gated := fun hbusy => absurd hbusy hidle
    writer := fun l busy rest hsubmits => by
      rw [hwriter] at hsubmits
      cases hsubmits
    stdin := fun l hl hahead => by
      rw [hdrained l hl] at hahead
      cases hahead
    lines := fun l hl => h.lines l (by simpa only [lines, hrunner, RunnerPc.lines] using hl)
    setup := fun hclosed c hc => h.setup hclosed c (by
      simpa only [commands, hrunner, RunnerPc.command] using hc) }

/-- What was typed while a command ran is submitted. -/
theorem inv_drain (h : Inv s) (hrunner : s.runner = .cleared false)
    (hstart : s.startAlpineAfterCommand = false) :
    Inv { s with stdinQueue := [], runner := .resubmitting s.stdinQueue } :=
  { h with
    busy := fun hbusy => by
      have hactive := h.busy hbusy
      rw [hrunner] at hactive
      cases hactive
    stdin := fun l hl => nomatch hl
    lines := by
      intro l hl hahead
      rcases List.mem_append.mp hl with hl | hl
      · exact h.lines l (List.mem_append_left _ hl) hahead
      · refine (h.stdin l hl hahead).resolve_right fun hstarts => ?_
        rw [hstart] at hstarts
        cases hstarts
    setup := fun hclosed c hc => h.setup hclosed c (by
      simpa only [commands, hrunner, RunnerPc.command] using hc) }

theorem inv_execute {source : Bool} (execution : Execution) (h : Inv s)
    (hdrained : s.awaitingAlpine = true → execution = .returned true →
      ∀ c ∈ s.commandQueue, c.1.ahead = false) : Inv (s.execute execution source) := by
  cases execution with
  | interrupted => exact (quiet_runner rfl rfl fun _ _ => rfl).inv h
  | raised => exact (quiet_runner rfl rfl fun _ _ => rfl).inv h
  | returned installed =>
      have hrest : ∀ pc : RunnerPc, pc.command = [] → pc.lines = [] → pc.active = true →
          Inv { s.rendered installed with runner := pc } := by
        intro pc hcommand hlines hactive
        unfold rendered
        split
        · rename_i hopens
          obtain ⟨hclosed, rfl⟩ := hopens
          exact @inv_open s pc h hlines hactive (hdrained hclosed rfl)
        · exact (quiet_runner hcommand hlines fun _ _ => hactive).inv h
      cases source with
      | true => exact hrest .executed rfl rfl rfl
      | false => exact hrest .finishing rfl rfl rfl

theorem submitLine_runner (entering : Entering) (s : SetupGate) (line : TypedLine) :
    (s.submitLine entering line).runner = s.runner := by
  unfold submitLine
  split
  · rfl
  · obtain ⟨history, index, queued, mode, block, pty, hhandle, _⟩ := handle_eq entering s line
    rw [hhandle]

theorem inv_submitLine (entering : Entering) (h : Inv s)
    (hline : line.ahead = true → s.awaitingAlpine = true) : Inv (s.submitLine entering line) := by
  unfold submitLine
  split
  · exact inv_put h fun hahead => Or.inl (hline hahead)
  · exact inv_handle entering h hline

theorem quiet_leftovers {leftovers : List TypedLine}
    (hrunner : s.runner = .resubmitting (line :: leftovers)) :
    Quiet s { s with runner := .resubmitting leftovers } :=
  { Quiet.refl s with
    active := fun _ hactive => by
      rw [hrunner] at hactive
      cases hactive
    lines := by
      intro l hl
      simp only [lines, hrunner, RunnerPc.lines, List.mem_append, List.mem_cons] at hl ⊢
      tauto
    commands := by simp [commands, hrunner, RunnerPc.command] }

/-! ## The steps -/

theorem inv_input (h : Inv s) (hs : s.input answers = some s') : Inv s' := by
  unfold input at hs
  cases hwriter : s.writer with
  | idle =>
      rw [hwriter] at hs
      cases hs
  | writing rest =>
      rw [hwriter] at hs
      cases rest with
      | nil =>
          obtain rfl := Option.some.inj hs
          exact (quiet_writer (by simp)).inv h
      | cons char rest =>
          dsimp only at hs
          split at hs
          · obtain rfl := Option.some.inj hs
            exact inv_check h rest
          · obtain rfl := Option.some.inj hs
            exact (quiet_writer (by simp)).inv ((quiet_handleKey s char).inv h)
  | submitting line busy rest =>
      rw [hwriter] at hs
      have hline := h.writer line busy rest hwriter
      cases busy with
      | true =>
          obtain rfl := Option.some.inj hs
          exact (quiet_writer (by simp)).inv (inv_put h fun hahead => (hline hahead).2)
      | false =>
          obtain rfl := Option.some.inj hs
          exact (quiet_writer (by simp)).inv
            (inv_handle answers.entering h fun hahead => nomatch (hline hahead).1)

theorem inv_work (h : Inv s) (hok : Drained s (.work answers)) (hs : s.work answers = some s') :
    Inv s' := by
  obtain ⟨hopens, hstarts⟩ := hok
  simp only [opens, startsAlpine] at hopens hstarts
  unfold work at hs
  cases hrunner : s.runner with
  | waiting =>
      simp only [hrunner] at hs
      split at hs
      · split at hs
        · cases hs
        · rename_i hqueue
          obtain rfl := Option.some.inj hs
          exact (quiet_dequeue hrunner hqueue).inv h
      · obtain rfl := Option.some.inj hs
        refine (quiet_runner rfl rfl fun _ hactive => ?_).inv h
        rw [hrunner] at hactive
        cases hactive
  | dequeued c =>
      simp only [hrunner] at hs
      obtain rfl := Option.some.inj hs
      exact inv_run h hrunner
  | running c =>
      simp only [hrunner] at hs
      obtain rfl := Option.some.inj hs
      exact inv_runLine answers h hrunner
  | executing source =>
      simp only [hrunner] at hs hopens
      obtain rfl := Option.some.inj hs
      refine inv_execute answers.execution h fun hclosed hreturned => hopens ?_
      simp [hclosed, hreturned]
  | extended =>
      simp only [hrunner] at hs
      obtain rfl := Option.some.inj hs
      exact (quiet_clearBusy rfl rfl).inv h
  | executed =>
      simp only [hrunner] at hs
      obtain rfl := Option.some.inj hs
      have hblock : Quiet s { s with pythonLines := [] } :=
        { Quiet.refl s with block := fun _ => rfl }
      exact (quiet_runner rfl rfl fun _ _ => rfl).inv (hblock.inv h)
  | finishing =>
      simp only [hrunner] at hs
      obtain rfl := Option.some.inj hs
      exact (quiet_runner rfl rfl fun _ _ => rfl).inv h
  | judged interrupted =>
      simp only [hrunner] at hs
      obtain rfl := Option.some.inj hs
      exact (quiet_clearBusy rfl rfl).inv h
  | cleared interrupted =>
      simp only [hrunner] at hs
      cases interrupted with
      | true =>
          obtain rfl := Option.some.inj hs
          have hdiscard : Quiet s { s with stdinQueue := [] } :=
            { Quiet.refl s with stdin := List.nil_subset _ }
          refine (quiet_runner rfl rfl fun _ hactive => ?_).inv (hdiscard.inv h)
          rw [hrunner] at hactive
          cases hactive
      | false =>
          dsimp only at hs
          split at hs
          · rename_i hstart
            split at hs
            · rename_i hwriter
              obtain rfl := Option.some.inj hs
              refine (quiet_enterLinuxPty answers.entering _).inv
                (inv_startAlpine h hrunner hwriter ?_)
              exact hstarts (by simp [hrunner, hstart])
            · cases hs
          · rename_i hstart
            obtain rfl := Option.some.inj hs
            exact inv_drain h hrunner (Bool.eq_false_iff.mpr hstart)
  | resubmitting leftovers =>
      simp only [hrunner] at hs
      cases leftovers with
      | nil =>
          obtain rfl := Option.some.inj hs
          refine (quiet_runner rfl rfl fun _ hactive => ?_).inv h
          rw [hrunner] at hactive
          cases hactive
      | cons line leftovers =>
          dsimp only at hs
          split at hs
          · cases hs
          · obtain rfl := Option.some.inj hs
            have hline : line ∈ s.lines := by simp [lines, hrunner, RunnerPc.lines]
            have hsubmit := inv_submitLine answers.entering h (h.lines line hline)
            refine (@quiet_leftovers _ line leftovers ?_).inv hsubmit
            exact (submitLine_runner answers.entering s line).trans hrunner
  | ended =>
      simp only [hrunner] at hs
      cases hs

theorem inv_step {a : SetupStep} (h : Inv s) (hok : Drained s a) (hs : step s a = some s') :
    Inv s' := by
  cases a with
  | write text =>
      simp only [step] at hs
      split at hs
      · cases hs
      · split at hs
        · obtain rfl := Option.some.inj hs
          exact (quiet_writer (by simp)).inv h
        · obtain rfl := Option.some.inj hs
          exact h
  | input answers => exact inv_input h hs
  | work answers => exact inv_work h hok hs
  | read =>
      simp only [step] at hs
      split at hs
      · rename_i source line rest _ hstdin
        obtain rfl := Option.some.inj hs
        have hread : Quiet s { s with stdinQueue := rest } :=
          { Quiet.refl s with
            stdin := by
              rw [hstdin]
              exact List.subset_cons_self line rest }
        exact hread.inv h
      · cases hs
  | enter answers =>
      simp only [step] at hs
      split at hs
      · obtain rfl := Option.some.inj hs
        exact (quiet_enterLinuxPty answers.entering s).inv h
      · cases hs
  | leave =>
      simp only [step] at hs
      split at hs
      · obtain rfl := Option.some.inj hs
        have hpty : Quiet s { s with pty := false } := { Quiet.refl s with }
        exact hpty.inv h
      · cases hs
  | stop =>
      simp only [step] at hs
      split at hs
      · obtain rfl := Option.some.inj hs
        have hstop : Quiet s { s with
            isRunning := false
            lineBuffer := []
            pythonLines := []
            pty := false
            interrupt := true } := { Quiet.refl s with block := fun _ => rfl }
        exact hstop.inv h
      · cases hs

/-- **The setup gate** keeps its promise in every run in which nothing
typed during the setup is left over when Alpine is started. -/
theorem gate_kept {awaitingAlpine : Bool} (h : Reach step Drained (start awaitingAlpine) s) :
    Kept s :=
  (h.invariant Inv (inv_start awaitingAlpine) fun _ _ _ hinv hok hs => inv_step hinv hok hs).kept

/-! ## Two sessions -/

/-- The command line is one of the shell, and returns; a PTY can be opened. -/
def answered (installed : Bool) : StepAnswers where
  entering := .opened
  isCommand := true
  incomplete := false
  execution := .returned installed

/-- The text is typed, and the input thread handles it: two steps for an
Enter, one to give the lock back. -/
def typing (text : List Char) : List SetupStep :=
  .write text :: List.replicate
    (text.length + text.countP (fun c => c = '\r' || c = '\n') + 1) (.input (answered false))

def working (n : ℕ) (installed : Bool) : List SetupStep :=
  List.replicate n (.work (answered installed))

/-- A setup fails while `ls` and a blank line are typed; the next one does
not. -/
def retried : List SetupStep :=
  typing "linux-setup\r".toList ++ working 3 false ++ typing "ls\r\r".toList ++ working 7 false
    ++ typing "linux-setup\r".toList ++ working 7 true

theorem retried_setup_is_kept : ∃ s, Reach step Drained (start true) s
    ∧ (s.ran.length = 2 ∧ s.pty = true ∧ s.stdinQueue = []) ∧ Kept s := by
  obtain ⟨s, hreach, hends⟩ := @reach_of_replay _ _ step Drained (start true) _ retried
    (fun s => decide (s.ran.length = 2 ∧ s.pty = true ∧ s.stdinQueue = [])) (by decide +kernel)
  exact ⟨s, hreach, of_decide_eq_true hends, gate_kept hreach⟩

/-- `linux-setup` is pasted twice, and `ls` is typed while the first one
runs. -/
def pastedTwice : List SetupStep :=
  typing "linux-setup\rlinux-setup\r".toList ++ working 3 true ++ typing "ls\r".toList
    ++ working 4 true ++ working 12 true

/-- The first setup opens the gate and starts Alpine. When the second is
over, `ls` runs on the host, behind the Alpine shell. -/
theorem stale_line_runs : ∃ s, Reach step Free (start true) s
    ∧ (⟨⟨"ls".toList, true⟩, .shell, false⟩ ∈ s.ran ∧ s.pty = true) ∧ ¬ Kept s := by
  obtain ⟨s, hreach, hends⟩ := @reach_of_replay _ _ step Free (start true) _ pastedTwice
    (fun s => decide (⟨⟨"ls".toList, true⟩, .shell, false⟩ ∈ s.ran ∧ s.pty = true))
    (by decide +kernel)
  have hran := of_decide_eq_true hends
  exact ⟨s, hreach, hran, fun hkept => nomatch hkept.noStale _ hran.1 rfl⟩

end SetupGate

end Zmux
