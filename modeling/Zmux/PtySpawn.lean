import Mathlib.Logic.Function.Basic
import Zmux.Geometry

/-!
# Starting the Alpine shell

`RealPtyProcess.__init__`, `_enter_linux_pty`, `PTYTerminalSession.start`
and `SessionManager.create`, as far as they are about the PTY. A `Host` is
what the system answers on one attempt; `fds` are the open descriptors of
the server.

`_enter_linux_pty` only catches `RuntimeError`. The constructor turns the
`OSError` of `os.fork` into one, after it has closed both descriptors, and
it catches the `OSError` of the `ioctl`. It does neither for the `OSError` of
`os.openpty` or the `struct.error` of the packing; a reader thread that
cannot be started is a `RuntimeError`, but the master stays open.
`spawn_contained_iff` says on which answers a failure is contained. The
rc file that `start` runs first is left out.
-/

namespace Zmux

namespace PtySpawn

/-! ## The attempt -/

inductive PyError where
  | os (message : String)
  | runtime (message : String)
  | value (message : String)
  /-- `struct.error`. -/
  | struct
  | other (message : String)
deriving DecidableEq

structure Host where
  /-- `linuxenv.is_installed()`. -/
  installed : Bool
  /-- `linuxenv.proot_binary()` is not `None`. -/
  proot : Bool
  /-- `build_interactive_argv` and `interactive_env`. -/
  argv : Except PyError (List String)
  /-- `os.openpty`, or the text of its `OSError`. -/
  openpty : Except String (ℕ × ℕ)
  /-- `os.fork`, or the text of its `OSError`. -/
  fork : Except String ℕ
  /-- `Thread.start` of the reader, or the text of its `RuntimeError`. -/
  reader : Except String Unit
  /-- `ZMUX_TEST` is not `1`. -/
  setupGateEnabled : Bool

/-- `_emit`, `_emit_prompt` and `_emit_setup_prompt`. -/
inductive Emitted where
  | text (text : String)
  | prompt
  | setupPrompt
deriving DecidableEq

/-- `pty` is the master of the session's PTY. -/
structure Session where
  isRunning : Bool
  busy : Bool
  repl : Bool
  awaitingAlpine : Bool
  cols : ℤ
  rows : ℤ
  pty : Option ℕ
  output : List Emitted
deriving DecidableEq

def Session.emit (s : Session) (text : String) : Session :=
  { s with output := s.output ++ [.text text] }

def Session.emitPrompt (s : Session) : Session := { s with output := s.output ++ [.prompt] }

/-- How `_enter_linux_pty` shows an error. -/
def Session.report (s : Session) (message : String) : Session :=
  (s.emit ("zmux: " ++ message ++ "\r\n")).emitPrompt

/-- `RealPtyProcess.__init__` in the parent: the master, and the
descriptors that are open then. -/
def newPty (host : Host) (argv : List String) (rows cols : ℤ) (fds : List ℕ) :
    Except PyError ℕ × List ℕ :=
  if argv = [] then (.error (.value "argv must not be empty"), fds)
  else match host.openpty with
    | .error message => (.error (.os message), fds)
    | .ok (master, slave) =>
      let fds := master :: slave :: fds
      -- `set_winsize`; the `OSError` of its `ioctl` is passed over
      if Geometry.packs (max 1 rows) && Geometry.packs (max 1 cols) then
        match host.fork with
        | .error message =>
          (.error (.runtime ("fork failed (PTY unavailable?): " ++ message)),
            (fds.erase master).erase slave)
        | .ok _ =>
          let fds := fds.erase slave
          match host.reader with
          | .error message => (.error (.runtime message), fds)
          | .ok () => (.ok master, fds)
      else (.error .struct, fds)

structure Outcome where
  raised : Option PyError
  session : Session
  fds : List ℕ

/-- `_enter_linux_pty`. -/
def enterLinuxPty (host : Host) (s : Session) (fds : List ℕ) : Outcome :=
  if !s.isRunning || s.pty.isSome || s.busy then ⟨none, s, fds⟩
  else if !host.installed then
    ⟨none, (s.emit ("zmux: Alpine environment is not installed.\r\n" ++
      "  Run `linux-setup` once (downloads ~4 MiB, SHA-512 verified),\r\n" ++
      "  then `linux` opens the real Alpine shell.\r\n")).emitPrompt, fds⟩
  else match host.argv with
    | .error (.runtime message) => ⟨none, s.report message, fds⟩
    | .error error => ⟨some error, s, fds⟩
    | .ok argv =>
      let s := { s with repl := false }.emit "\r\n[ZMUX Alpine Linux - real PTY]\r\n"
      match newPty host argv s.rows s.cols fds with
      | (.error (.runtime message), fds) => ⟨none, s.report message, fds⟩
      | (.error error, fds) => ⟨some error, s, fds⟩
      | (.ok master, fds) => ⟨none, { s with pty := some master }, fds⟩

/-! ## A new session -/

/-- A `PTYTerminalSession` after its first `resize`. -/
def Session.new (cols rows : ℤ) : Session where
  isRunning := false
  busy := false
  repl := false
  awaitingAlpine := false
  cols := if 0 < cols then cols else 80
  rows := if 0 < rows then rows else 24
  pty := none
  output := []

/-- `_auto_start_alpine`. -/
def Host.autoStart (host : Host) : Bool := host.installed && host.proot

def Session.emitSetupPrompt (s : Session) : Session :=
  { s with output := s.output ++ [.setupPrompt] }

/-- `start`. -/
def start (host : Host) (s : Session) (fds : List ℕ) : Outcome :=
  if s.isRunning then ⟨none, s, fds⟩
  else
    let s := { s with isRunning := true }
    if host.autoStart then enterLinuxPty host s fds
    else if host.setupGateEnabled then
      let s := { s with awaitingAlpine := true }.emit
        ("ZMUX needs its Alpine Linux environment before a terminal can open.\r\n" ++
          "Type `linux-setup` to download and verify Alpine, then ZMUX opens it automatically.\r\n")
      ⟨none, s.emitSetupPrompt, fds⟩
    else ⟨none, s.emitPrompt, fds⟩

structure World where
  manager : Manager
  cols : ℤ
  rows : ℤ
  session : SessionId → Session
  fds : List ℕ

/-- `SessionManager.create`. -/
def create (activate : Bool) (host : Host) (w : World) : Except PyError SessionId × World :=
  match w.manager.create activate with
  | none => (.error (.value "session limit reached (8)"), w)
  | some (sessionId, m) =>
    let out := start host (.new w.cols w.rows) w.fds
    let w := { w with
      manager := m
      session := Function.update w.session sessionId out.session
      fds := out.fds }
    match out.raised with
    | some error => (.error error, w)
    | none => (.ok sessionId, w)

/-! ## Containment -/

/-- A failed attempt is reported, and leaves no PTY and no descriptor. -/
structure EnterContained (fds : List ℕ) (out : Outcome) : Prop where
  raised : out.raised = none
  reported : out.session.pty = none →
    ∃ message, [.text ("zmux: " ++ message ++ "\r\n"), .prompt] <:+ out.session.output
  closed : out.session.pty = none → out.fds = fds

/-- It runs, and it has a PTY or has shown a prompt. -/
def Session.Usable (s : Session) : Prop :=
  s.isRunning = true ∧ (s.pty.isSome = true ∨ s.output.getLast? = some .prompt ∨
    s.output.getLast? = some .setupPrompt)

/-- `create` returns a session that can be used, or has changed nothing. -/
def CreateContained (w : World) : Except PyError SessionId × World → Prop
  | (.ok sessionId, w') => sessionId ∈ w'.manager.order ∧ (w'.session sessionId).Usable
  | (.error _, w') =>
    w'.manager.order = w.manager.order ∧ w'.manager.active = w.manager.active

def PyError.isRuntime : PyError → Bool
  | .runtime _ => true
  | _ => false

/-- No call before the fork fails, or it is the one for the `argv`, with a
`RuntimeError`. -/
def Caught (host : Host) (rows cols : ℤ) : Prop :=
  match host.argv with
  | .error error => error.isRuntime = true
  | .ok argv => argv ≠ [] ∧ host.openpty.isOk = true ∧
      (Geometry.packs (max 1 rows) && Geometry.packs (max 1 cols)) = true

/-- The reader thread starts, if it comes to that. -/
def ReaderStarts (host : Host) : Prop :=
  host.argv.isOk = true → host.fork.isOk = true → host.reader.isOk = true

instance (host : Host) (rows cols : ℤ) : Decidable (Caught host rows cols) :=
  match h : host.argv with
  | .error error => decidable_of_iff (error.isRuntime = true) (by simp [Caught, h])
  | .ok argv => decidable_of_iff (argv ≠ [] ∧ host.openpty.isOk = true ∧
      (Geometry.packs (max 1 rows) && Geometry.packs (max 1 cols)) = true) (by simp [Caught, h])

/-- Running, idle and without a PTY, so that an attempt is made. -/
structure Ready (host : Host) (s : Session) : Prop where
  installed : host.installed = true
  running : s.isRunning = true
  idle : s.busy = false
  none : s.pty = none

/-- The ways an attempt ends. -/
inductive Attempt (host : Host) (s : Session) (fds : List ℕ) : Outcome → Prop
  | uncaught {error : PyError} {s' : Session} {fds' : List ℕ} :
      ¬ Caught host s.rows s.cols → Attempt host s fds ⟨some error, s', fds'⟩
  | leaked {message : String} {master : ℕ} {s' : Session} :
      Caught host s.rows s.cols → ¬ ReaderStarts host → s'.pty = none → s'.isRunning = true →
      Attempt host s fds ⟨none, s'.report message, master :: fds⟩
  | failed {message : String} {s' : Session} :
      Caught host s.rows s.cols → ReaderStarts host → s'.pty = none → s'.isRunning = true →
      Attempt host s fds ⟨none, s'.report message, fds⟩
  | alive {master : ℕ} {s' : Session} :
      Caught host s.rows s.cols → ReaderStarts host → s'.pty = some master →
      s'.isRunning = true → Attempt host s fds ⟨none, s', master :: fds⟩

theorem erase_slave (master slave : ℕ) (fds : List ℕ) :
    (master :: slave :: fds).erase slave = master :: fds := by
  by_cases h : master = slave
  · rw [h, List.erase_cons_head]
  · rw [List.erase_cons_tail (by simpa using h), List.erase_cons_head]

theorem enterLinuxPty_attempt {host : Host} {s : Session} (h : Ready host s) (fds : List ℕ) :
    Attempt host s fds (enterLinuxPty host s fds) := by
  unfold enterLinuxPty
  rw [h.running, h.none, h.idle, h.installed]
  simp only [Bool.not_true, Option.isSome_none, Bool.or_self, Bool.false_eq_true, if_false]
  cases hargv : host.argv with
  | error error =>
      cases error with
      | runtime message =>
          refine .failed ?_ ?_ h.none h.running
          · simp [Caught, hargv, PyError.isRuntime]
          · simp [ReaderStarts, hargv, Except.isOk, Except.toBool]
      | os _ | value _ | struct | other _ =>
          exact .uncaught (by simp [Caught, hargv, PyError.isRuntime])
  | ok argv =>
      have hcaught : Caught host s.rows s.cols ↔ argv ≠ [] ∧ host.openpty.isOk = true ∧
          (Geometry.packs (max 1 s.rows) && Geometry.packs (max 1 s.cols)) = true := by
        rw [Caught, hargv]
      dsimp only [newPty, Session.emit]
      by_cases hempty : argv = []
      · rw [if_pos hempty]
        exact .uncaught fun hc => (hcaught.mp hc).1 hempty
      · rw [if_neg hempty]
        cases hopenpty : host.openpty with
        | error message =>
            refine .uncaught fun hc => ?_
            have hok := (hcaught.mp hc).2.1
            rw [hopenpty] at hok
            cases hok
        | ok pair =>
            obtain ⟨master, slave⟩ := pair
            dsimp only
            by_cases hpacks :
                (Geometry.packs (max 1 s.rows) && Geometry.packs (max 1 s.cols)) = true
            · rw [if_pos hpacks]
              have hc : Caught host s.rows s.cols :=
                hcaught.mpr ⟨hempty, by rw [hopenpty]; rfl, hpacks⟩
              cases hfork : host.fork with
              | error message =>
                  dsimp only
                  rw [List.erase_cons_head, List.erase_cons_head]
                  refine .failed hc (fun _ hforked => ?_) rfl rfl
                  rw [hfork] at hforked
                  cases hforked
              | ok pid =>
                  dsimp only
                  rw [erase_slave]
                  cases hreader : host.reader with
                  | error message =>
                      refine .leaked hc (fun hstarts => ?_) rfl rfl
                      have hstarted := hstarts (by rw [hargv]; rfl) (by rw [hfork]; rfl)
                      rw [hreader] at hstarted
                      cases hstarted
                  | ok _ =>
                      exact .alive hc (fun _ _ => by rw [hreader]; rfl) rfl rfl
            · rw [if_neg hpacks]
              exact .uncaught fun hc => hpacks (hcaught.mp hc).2.2

theorem report_suffix (s : Session) (message : String) :
    [.text ("zmux: " ++ message ++ "\r\n"), .prompt] <:+ (s.report message).output := by
  refine ⟨s.output, ?_⟩
  simp [Session.report, Session.emit, Session.emitPrompt]

/-- A failed attempt is contained exactly if the failure is one that is
caught, and no reader thread was to be started. -/
theorem enterContained_iff {host : Host} {s : Session} (h : Ready host s) (fds : List ℕ) :
    EnterContained fds (enterLinuxPty host s fds) ↔
      Caught host s.rows s.cols ∧ ReaderStarts host := by
  have hattempt := enterLinuxPty_attempt h fds
  generalize enterLinuxPty host s fds = out at hattempt ⊢
  cases hattempt with
  | uncaught hcaught =>
      exact ⟨fun hcontained => absurd hcontained.raised nofun, fun hc => absurd hc.1 hcaught⟩
  | leaked _ hreader hnone _ =>
      refine ⟨fun hcontained => ?_, fun hc => absurd hc.2 hreader⟩
      have hlength := congrArg List.length (hcontained.closed hnone)
      rw [List.length_cons] at hlength
      exact absurd hlength (Nat.succ_ne_self _)
  | failed hcaught hreader =>
      exact ⟨fun _ => ⟨hcaught, hreader⟩,
        fun _ => ⟨rfl, fun _ => ⟨_, report_suffix _ _⟩, fun _ => rfl⟩⟩
  | alive hcaught hreader hpty =>
      exact ⟨fun _ => ⟨hcaught, hreader⟩,
        fun _ => ⟨rfl, fun hnone => absurd (hpty.symm.trans hnone) nofun,
          fun hnone => absurd (hpty.symm.trans hnone) nofun⟩⟩

theorem usable_report {s : Session} (h : s.isRunning = true) (message : String) :
    (s.report message).Usable :=
  ⟨h, Or.inr (Or.inl (by simp [Session.report, Session.emitPrompt]))⟩

/-- The session that `create` starts. -/
def Session.started (cols rows : ℤ) : Session := { Session.new cols rows with isRunning := true }

theorem start_attempt {host : Host} (hauto : host.autoStart = true) (cols rows : ℤ)
    (fds : List ℕ) :
    Attempt host (.started cols rows) fds (start host (.new cols rows) fds) := by
  have hinstalled : host.installed = true := by
    rw [Host.autoStart, Bool.and_eq_true] at hauto
    exact hauto.1
  rw [start, if_neg (by simp [Session.new])]
  dsimp only
  rw [if_pos hauto]
  exact enterLinuxPty_attempt ⟨hinstalled, rfl, rfl, rfl⟩ fds

theorem start_gate {host : Host} (hauto : host.autoStart = false) (cols rows : ℤ)
    (fds : List ℕ) :
    ∃ s', start host (.new cols rows) fds = ⟨none, s', fds⟩ ∧ s'.Usable := by
  rw [start, if_neg (by simp [Session.new])]
  dsimp only
  rw [if_neg (by simp [hauto])]
  split
  · exact ⟨_, rfl, rfl, Or.inr (Or.inr (by simp [Session.emitSetupPrompt]))⟩
  · exact ⟨_, rfl, rfl, Or.inr (Or.inl (by simp [Session.emitPrompt]))⟩

/-- The start of a new session raises exactly if the shell is started and
its failure is not caught; otherwise the session can be used. -/
theorem start_new (host : Host) (cols rows : ℤ) (fds : List ℕ) :
    let new := Session.new cols rows
    ((host.autoStart = false ∨ Caught host new.rows new.cols) ∧
      ∃ s' fds', start host new fds = ⟨none, s', fds'⟩ ∧ s'.Usable) ∨
    (¬ (host.autoStart = false ∨ Caught host new.rows new.cols) ∧
      ∃ error s' fds', start host new fds = ⟨some error, s', fds'⟩) := by
  intro new
  cases hauto : host.autoStart with
  | false =>
      obtain ⟨s', hstart, husable⟩ := start_gate hauto cols rows fds
      exact Or.inl ⟨Or.inl rfl, s', fds, hstart, husable⟩
  | true =>
      have hattempt := start_attempt hauto cols rows fds
      change Attempt host (.started cols rows) fds (start host new fds) at hattempt
      generalize start host new fds = out at hattempt
      cases hattempt with
      | uncaught hcaught => exact Or.inr ⟨fun h => hcaught (h.resolve_left nofun), _, _, _, rfl⟩
      | leaked hcaught _ _ hrunning =>
          exact Or.inl ⟨Or.inr hcaught, _, _, rfl, usable_report hrunning _⟩
      | failed hcaught _ _ hrunning =>
          exact Or.inl ⟨Or.inr hcaught, _, _, rfl, usable_report hrunning _⟩
      | alive hcaught _ hpty hrunning =>
          refine Or.inl ⟨Or.inr hcaught, _, _, rfl, hrunning, Or.inl ?_⟩
          rw [hpty]
          rfl

/-- `create` is contained exactly if the cap is hit, or the start of the
session does not raise. -/
theorem createContained_iff (activate : Bool) (host : Host) (w : World) :
    let new := Session.new w.cols w.rows
    CreateContained w (create activate host w) ↔
      maxSessions ≤ w.manager.order.length ∨ host.autoStart = false ∨
        Caught host new.rows new.cols := by
  intro new
  unfold create
  cases hcreate : w.manager.create activate with
  | none =>
      have hcap : maxSessions ≤ w.manager.order.length := by
        by_contra hroom
        rw [Manager.create, if_neg hroom] at hcreate
        cases hcreate
      exact ⟨fun _ => Or.inl hcap, fun _ => ⟨rfl, rfl⟩⟩
  | some created =>
      obtain ⟨sessionId, m⟩ := created
      obtain ⟨-, horder, -, -⟩ := Manager.create_eq hcreate
      have hroom : ¬ maxSessions ≤ w.manager.order.length := by
        intro hcap
        rw [Manager.create, if_pos hcap] at hcreate
        cases hcreate
      dsimp only
      rcases start_new host w.cols w.rows w.fds with
        ⟨hok, s', fds', hstart, husable⟩ | ⟨hbad, error, s', fds', hstart⟩
      · rw [hstart]
        refine ⟨fun _ => Or.inr hok, fun _ => ⟨?_, ?_⟩⟩
        · rw [horder]
          exact List.mem_append_right _ (List.mem_singleton_self _)
        · dsimp only
          rw [Function.update_self]
          exact husable
      · rw [hstart]
        refine ⟨fun hcontained => ?_, fun hc => absurd (hc.resolve_left hroom) hbad⟩
        have hsame := congrArg List.length (hcontained.1.symm.trans horder)
        rw [List.length_append] at hsame
        exact absurd hsame.symm (Nat.succ_ne_self _)

/-- **Which failures are contained**, in `_enter_linux_pty` and in `create`. -/
theorem spawn_contained_iff (host : Host) :
    (∀ s fds, Ready host s → (EnterContained fds (enterLinuxPty host s fds) ↔
      Caught host s.rows s.cols ∧ ReaderStarts host)) ∧
    ∀ activate w, CreateContained w (create activate host w) ↔
      maxSessions ≤ w.manager.order.length ∨ host.autoStart = false ∨
        Caught host (Session.new w.cols w.rows).rows (Session.new w.cols w.rows).cols :=
  ⟨fun _ fds h => enterContained_iff h fds,
    fun activate w => createContained_iff activate host w⟩

/-- A host that has Alpine and on which `os.fork` fails. -/
def forkDenied : Host where
  installed := true
  proot := true
  argv := .ok ["/usr/bin/proot"]
  openpty := .ok (7, 8)
  fork := .error "[Errno 11] Resource temporarily unavailable"
  reader := .ok ()
  setupGateEnabled := true

/-- A failed fork is reported. -/
theorem forkDenied_contained :
    EnterContained [3] (enterLinuxPty forkDenied (.started 80 24) [3]) :=
  ((spawn_contained_iff forkDenied).1 (.started 80 24) [3] ⟨rfl, rfl, rfl, rfl⟩).mpr
    ⟨by decide, fun _ h => by cases h⟩

/-- `/dev/ptmx` is not accessible: `_enter_linux_pty` raises, and so does
`create`, with its session registered and active. -/
theorem openpty_denied_not_contained :
    let host : Host := { forkDenied with
      openpty := .error "[Errno 13] Permission denied: '/dev/ptmx'" }
    let w : World := ⟨⟨[], none, 0⟩, 80, 24, fun _ => .new 80 24, [3]⟩
    (enterLinuxPty host (.started 80 24) [3]).raised
        = some (.os "[Errno 13] Permission denied: '/dev/ptmx'") ∧
      ¬ EnterContained [3] (enterLinuxPty host (.started 80 24) [3]) ∧
      (create true host w).2.manager.active = some 1 ∧
      ¬ CreateContained w (create true host w) := by
  intro host w
  refine ⟨rfl, fun h => absurd h.raised nofun, rfl, fun h => absurd h.1 nofun⟩

end PtySpawn

end Zmux
