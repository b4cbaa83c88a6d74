import Mathlib.Tactic.SplitIfs
import Zmux.Console
import Zmux.Runs

/-!
# What the threads of the console do

One lemma for each operation of the console says all that it can change:
`handle_eq` for the treatment of a line, `runLine_eq` for the execution of
a command line, `Worked` for the steps of the worker. From these follow
that busy is set only while the worker is active, and that the session
comes to rest when nobody types.
-/

namespace Zmux

namespace WorkerPc

/-- The busy flag may be set. -/
def active : WorkerPc → Bool
  | .running _ | .extended | .executed | .finishing => true
  | _ => false

/-- A bound on the steps to the next wait, if nothing else is queued. -/
def load : WorkerPc → Nat
  | .waiting => 0
  | .resubmitting leftovers => 1 + 8 * leftovers.length
  | .cleared => 2
  | .finishing => 3
  | .extended | .executed => 4
  | .running _ => 5
  | .dequeued _ => 6

end WorkerPc

namespace Console

variable {host : Host} {s s' : Console} {line : Line}

/-! ## Handling and running a line -/

theorem historyRecord_eq (s : Console) (line : Line) :
    ∃ history, s.historyRecord line = { s with history := history } := by
  unfold historyRecord
  split
  · exact ⟨_, rfl⟩
  · exact ⟨s.history, rfl⟩

theorem enterLinuxPty_eq (host : Host) (s : Console) :
    ∃ mode, s.enterLinuxPty host = { s with mode := mode } := by
  unfold enterLinuxPty
  split
  · exact ⟨.shell, rfl⟩
  · exact ⟨s.mode, rfl⟩

theorem enterLinuxPty_shell (h : s.mode = .shell) : s.enterLinuxPty host = s := by
  unfold enterLinuxPty
  split
  · rw [← h]
  · rfl

/-- All that handling a line can change. -/
theorem handle_eq (host : Host) (s : Console) (line : Line) :
    ∃ history queued mode pythonLines, s.handle host line =
      { s with
        history := history
        commandQueue := s.commandQueue ++ queued
        mode := mode
        pythonLines := pythonLines }
      ∧ queued.length ≤ 1 := by
  obtain ⟨history, hhistory⟩ := historyRecord_eq s (strip line)
  unfold handle
  simp only [hhistory]
  cases verdict s.busy s.awaitingAlpine s.mode s.pythonLines line with
  | ignore => exact ⟨history, [], s.mode, s.pythonLines, by simp, by simp⟩
  | queue mode => exact ⟨history, [(line, mode)], s.mode, s.pythonLines, rfl, by simp⟩
  | enterRepl => exact ⟨history, [], .repl, s.pythonLines, by simp, by simp⟩
  | enterAlpine =>
      obtain ⟨mode, hmode⟩ := enterLinuxPty_eq host { s with history := history }
      exact ⟨history, [], mode, s.pythonLines, by simp [hmode], by simp⟩
  | leaveRepl => exact ⟨history, [], .shell, [], by simp, by simp⟩

theorem mode_of_enterAlpine {busy awaiting : Bool} {mode : Mode} {pythonLines : List Line}
    (h : verdict busy awaiting mode pythonLines line = .enterAlpine) : mode = .shell := by
  dsimp only [verdict] at h
  split_ifs at h with _ _ _ _ _ halpine
  exact halpine.1

theorem word_of_leaveRepl {busy awaiting : Bool} {mode : Mode} {pythonLines : List Line}
    (h : verdict busy awaiting mode pythonLines line = .leaveRepl) :
    strip line ≠ [] ∧ awaiting = false ∧ mode = .repl ∧ strip line ∈ replExit := by
  dsimp only [verdict] at h
  split_ifs at h with hblank _ hgate _ _ _ hexit
  exact ⟨hblank, Bool.eq_false_iff.mpr hgate, hexit⟩

theorem rendered_eq (host : Host) (s : Console) :
    s.rendered host =
      { s with
        awaitingAlpine := s.awaitingAlpine && !host.alpineInstalled s.ran
        startAlpineAfterCommand :=
          s.startAlpineAfterCommand || s.awaitingAlpine && host.alpineInstalled s.ran } := by
  unfold rendered
  rcases s with ⟨_, _, _, _, _, awaiting, _, _, _, _, _, ran⟩
  cases awaiting <;> cases host.alpineInstalled ran <;> simp

/-- All that running a command line can change. -/
theorem runLine_eq (host : Host) (s : Console) (command : Command) :
    ∃ pythonLines awaitingAlpine startAlpineAfterCommand worker, s.runLine host command =
      { s with
        pythonLines := pythonLines
        awaitingAlpine := awaitingAlpine
        startAlpineAfterCommand := startAlpineAfterCommand
        worker := worker
        ran := s.ran ++ [command] }
      ∧ (worker = .extended ∨ worker = .executed ∨ worker = .finishing) := by
  unfold runLine
  cases outcome host s.ran s.pythonLines command with
  | block => exact ⟨_, _, _, _, rfl, Or.inl rfl⟩
  | command =>
      dsimp only
      split
      · exact ⟨_, _, _, _, rfl, Or.inr (Or.inr rfl)⟩
      · rw [rendered_eq]
        exact ⟨_, _, _, _, rfl, Or.inr (Or.inr rfl)⟩
  | source =>
      dsimp only
      split
      · exact ⟨_, _, _, _, rfl, Or.inr (Or.inr rfl)⟩
      · rw [rendered_eq]
        exact ⟨_, _, _, _, rfl, Or.inr (Or.inl rfl)⟩

/-! ## The worker -/

/-- The steps of the worker. -/
inductive Worked (host : Host) (s : Console) : Console → Prop
  | dequeue {command : Command} {rest : List Command} : s.worker = .waiting →
      s.commandQueue = command :: rest →
      Worked host s { s with commandQueue := rest, worker := .dequeued command }
  | setBusy {command : Command} : s.worker = .dequeued command →
      Worked host s { s with busy := true, worker := .running command }
  | run {command : Command} : s.worker = .running command →
      Worked host s (s.runLine host command)
  | await : s.worker = .extended → Worked host s { s with busy := false, worker := .finishing }
  | clearBlock : s.worker = .executed →
      Worked host s { s with pythonLines := [], worker := .finishing }
  | clearBusy : s.worker = .finishing → Worked host s { s with busy := false, worker := .cleared }
  | startAlpine : s.worker = .cleared → s.startAlpineAfterCommand = true →
      Worked host s
        ({ s with startAlpineAfterCommand := false, worker := .waiting }.enterLinuxPty host)
  | drain : s.worker = .cleared →
      Worked host s { s with stdinQueue := [], worker := .resubmitting s.stdinQueue }
  | resubmit {line : Line} {rest : List Line} : s.worker = .resubmitting (line :: rest) →
      Worked host s { s.submitLine host line with worker := .resubmitting rest }
  | wait : s.worker = .resubmitting [] → Worked host s { s with worker := .waiting }

theorem worked_of_work (hs : work host s = some s') : Worked host s s' := by
  unfold work at hs
  split at hs
  · rename_i hworker
    split at hs
    · cases hs
    · rename_i hqueue
      obtain rfl := Option.some.inj hs
      exact .dequeue hworker hqueue
  · obtain rfl := Option.some.inj hs
    exact .setBusy ‹_›
  · obtain rfl := Option.some.inj hs
    exact .run ‹_›
  · obtain rfl := Option.some.inj hs
    exact .await ‹_›
  · obtain rfl := Option.some.inj hs
    exact .clearBlock ‹_›
  · obtain rfl := Option.some.inj hs
    exact .clearBusy ‹_›
  · split at hs
    · obtain rfl := Option.some.inj hs
      exact .startAlpine ‹_› ‹_›
    · obtain rfl := Option.some.inj hs
      exact .drain ‹_›
  · obtain rfl := Option.some.inj hs
    exact .resubmit ‹_›
  · obtain rfl := Option.some.inj hs
    exact .wait ‹_›

/-- Only the worker sets the busy flag, for as long as it is active. -/
def BusyWhileActive (s : Console) : Prop := s.busy = true → s.worker.active = true

theorem BusyWhileActive.idle (h : BusyWhileActive s) (hworker : s.worker.active = false) :
    s.busy = false := by
  cases hbusy : s.busy with
  | false => rfl
  | true => exact (h hbusy).symm.trans hworker

theorem BusyWhileActive.of_idle (h : s.busy = false) : BusyWhileActive s :=
  fun hbusy => absurd (h.symm.trans hbusy) Bool.false_ne_true

theorem busy_work (h : BusyWhileActive s) (hs : Worked host s s') : BusyWhileActive s' := by
  cases hs with
  | dequeue hworker _ => exact .of_idle (h.idle (by rw [hworker]; rfl))
  | setBusy _ => exact fun _ => rfl
  | @run command _ =>
      obtain ⟨pythonLines, awaiting, alpine, worker, hrun, hpc⟩ := runLine_eq host s command
      rw [hrun]
      rcases hpc with rfl | rfl | rfl <;> exact fun _ => rfl
  | await _ => exact fun _ => rfl
  | clearBlock _ => exact fun _ => rfl
  | clearBusy _ => exact .of_idle rfl
  | startAlpine hworker _ =>
      obtain ⟨mode, hmode⟩ := enterLinuxPty_eq host
        { s with startAlpineAfterCommand := false, worker := .waiting }
      rw [hmode]
      exact .of_idle (h.idle (by rw [hworker]; rfl))
  | drain hworker => exact .of_idle (h.idle (by rw [hworker]; rfl))
  | @resubmit line rest hworker =>
      have hidle := h.idle (by rw [hworker]; rfl)
      obtain ⟨history, queued, mode, pythonLines, hhandle, -⟩ := handle_eq host s line
      rw [submitLine, hidle, if_neg Bool.false_ne_true, hhandle]
      exact .of_idle hidle
  | wait hworker => exact .of_idle (h.idle (by rw [hworker]; rfl))

theorem busy_step (a : ConsoleStep) (h : BusyWhileActive s) (hs : step host s a = some s') :
    BusyWhileActive s' := by
  cases a with
  | type line =>
      rw [step] at hs
      split at hs
      · obtain rfl := Option.some.inj hs
        exact h
      · cases hs
  | submit =>
      rw [step] at hs
      split at hs
      · cases hs
      · obtain rfl := Option.some.inj hs
        exact h
      · rename_i line hinput
        obtain rfl := Option.some.inj hs
        obtain ⟨history, queued, mode, pythonLines, hhandle, -⟩ := handle_eq host s line
        rw [hhandle]
        exact h
  | work => exact busy_work h (worked_of_work hs)

/-! ## The console comes to rest

Each step of the worker lowers `load`, so once nobody types any more the
session is soon at rest, from every state. -/

def load (s : Console) : Nat :=
  s.worker.load + 7 * s.commandQueue.length + 8 * s.stdinQueue.length

theorem load_work (hactive : BusyWhileActive s) (hs : Worked host s s') : s'.load < s.load := by
  cases hs with
  | dequeue hworker hqueue =>
      simp only [load, hworker, hqueue, WorkerPc.load, List.length_cons]
      omega
  | setBusy hworker =>
      simp only [load, hworker, WorkerPc.load]
      omega
  | @run command hworker =>
      obtain ⟨pythonLines, awaiting, alpine, worker, hrun, hpc⟩ := runLine_eq host s command
      have hless : worker.load < s.worker.load := by
        rw [hworker]
        rcases hpc with rfl | rfl | rfl <;> simp [WorkerPc.load]
      rw [hrun]
      simp only [load]
      omega
  | await hworker =>
      simp only [load, hworker, WorkerPc.load]
      omega
  | clearBlock hworker =>
      simp only [load, hworker, WorkerPc.load]
      omega
  | clearBusy hworker =>
      simp only [load, hworker, WorkerPc.load]
      omega
  | startAlpine hworker _ =>
      obtain ⟨mode, hmode⟩ := enterLinuxPty_eq host
        { s with startAlpineAfterCommand := false, worker := .waiting }
      rw [hmode]
      simp only [load, hworker, WorkerPc.load]
      omega
  | drain hworker =>
      simp only [load, hworker, WorkerPc.load, List.length_nil]
      omega
  | @resubmit line rest hworker =>
      have hidle := hactive.idle (by rw [hworker]; rfl)
      obtain ⟨history, queued, mode, pythonLines, hhandle, hqueued⟩ := handle_eq host s line
      rw [submitLine, hidle, if_neg Bool.false_ne_true, hhandle]
      simp only [load, hworker, WorkerPc.load, List.length_append, List.length_cons]
      omega
  | wait hworker =>
      simp only [load, hworker, WorkerPc.load, List.length_nil]
      omega

theorem input_work (hs : Worked host s s') : s'.input = s.input := by
  cases hs with
  | @run command _ =>
      obtain ⟨pythonLines, awaiting, alpine, worker, hrun, -⟩ := runLine_eq host s command
      rw [hrun]
  | startAlpine _ _ =>
      obtain ⟨mode, hmode⟩ := enterLinuxPty_eq host
        { s with startAlpineAfterCommand := false, worker := .waiting }
      rw [hmode]
  | @resubmit line rest _ =>
      obtain ⟨history, queued, mode, pythonLines, hhandle, -⟩ := handle_eq host s line
      rw [submitLine]
      split
      · rfl
      · rw [hhandle]
  | _ => rfl

/-- The worker stops only to wait for a command line. -/
theorem waiting_of_work_none (h : work host s = none) :
    s.worker = .waiting ∧ s.commandQueue = [] := by
  unfold work at h
  split at h
  · rename_i hworker
    split at h
    · exact ⟨hworker, ‹_›⟩
    · cases h
  all_goals first | cases h | (split at h <;> cases h)

/-- Nothing is typed. -/
def Untyped (_ : Console) : ConsoleStep → Prop
  | .type _ => False
  | .submit | .work => True

theorem work_comes_to_rest : ∀ {s : Console}, BusyWhileActive s → s.input = .idle →
    ∃ s', Reach (step host) Untyped s s' ∧ s'.AtRest := by
  intro s
  induction hload : s.load using Nat.strongRecOn generalizing s with
  | ind load ih =>
      intro hactive hinput
      cases hwork : work host s with
      | none =>
          obtain ⟨hworker, hqueue⟩ := waiting_of_work_none hwork
          exact ⟨s, .start, hinput, hworker, hqueue⟩
      | some s₁ =>
          have hworked := worked_of_work hwork
          obtain ⟨s', hreach, hrest⟩ := ih s₁.load (hload ▸ load_work hactive hworked) rfl
            (busy_work hactive hworked) ((input_work hworked).trans hinput)
          have hone : Reach (step host) Untyped s s₁ := .next (a := .work) .start trivial hwork
          exact ⟨s', hone.trans hreach, hrest⟩

theorem comes_to_rest {awaiting : Bool} (h : Reach (step host) Free (start awaiting) s) :
    ∃ s', Reach (step host) Untyped s s' ∧ s'.AtRest := by
  have hactive : BusyWhileActive s :=
    h.invariant BusyWhileActive nofun fun _ a _ hs _ hnext => busy_step a hs hnext
  cases hinput : s.input with
  | idle => exact work_comes_to_rest hactive hinput
  | checked line busy =>
      obtain ⟨s₁, hnext, hinput₁⟩ :
          ∃ s₁, step host s .submit = some s₁ ∧ s₁.input = .idle := by
        rw [step, hinput]
        cases busy with
        | true => exact ⟨_, rfl, rfl⟩
        | false => exact ⟨_, rfl, rfl⟩
      obtain ⟨s', hreach, hrest⟩ :=
        work_comes_to_rest (busy_step .submit hactive hnext) hinput₁
      have hone : Reach (step host) Untyped s s₁ := .next (a := .submit) .start trivial hnext
      exact ⟨s', hone.trans hreach, hrest⟩

end Console

end Zmux
