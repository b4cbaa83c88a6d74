import Zmux.Console

/-!
# The sequential console

What the host console is for: a console that finishes each line before it
reads the next one. It takes the same decisions as the code (`verdict`,
`outcome`), but takes them when everything typed before has run. The lines
it runs are all that are not blank and not words of the console itself
(`readAll_plain`), and the blank lines that close a block (`read_blank`).
-/

namespace Zmux

/-- A line that the console does not keep for itself. -/
def Plain (line : Line) : Prop := strip line ∉ replEnter ++ replExit ++ alpineEnter

def nonBlank (line : Line) : Bool := strip line ≠ []

structure Reading where
  mode : Mode
  /-- The lines of the open block. -/
  block : List Line
  /-- Only `linux-setup` is available. -/
  gate : Bool
  ran : List Command
deriving DecidableEq

namespace Reading

def run (host : Host) (r : Reading) (command : Command) : Reading :=
  let ran := r.ran ++ [command]
  let gate := r.gate && (host.raises ran || !host.alpineInstalled ran)
  match outcome host r.ran r.block command with
  | .block => { r with ran := ran, block := r.block ++ [command.1] }
  | .command => { r with ran := ran, gate := gate }
  | .source =>
    { r with ran := ran, gate := gate, block := if host.raises ran then r.block else [] }

def runAll (host : Host) (r : Reading) (commands : List Command) : Reading :=
  commands.foldl (run host) r

def read (host : Host) (r : Reading) (line : Line) : Reading :=
  match verdict false r.gate r.mode r.block line with
  | .ignore => r
  | .queue mode => r.run host (line, mode)
  | .enterRepl => { r with mode := .repl }
  | .enterAlpine => r
  | .leaveRepl => { r with mode := .shell, block := [] }

def readAll (host : Host) (r : Reading) (lines : List Line) : Reading :=
  lines.foldl (read host) r

variable {host : Host}

theorem run_ran (r : Reading) (command : Command) :
    (r.run host command).ran = r.ran ++ [command] := by
  unfold run
  cases outcome host r.ran r.block command <;> rfl

theorem run_mode (r : Reading) (command : Command) : (r.run host command).mode = r.mode := by
  unfold run
  cases outcome host r.ran r.block command <;> rfl

/-- The mode a command line runs in was fixed when it was queued. -/
theorem run_switch (r : Reading) (mode : Mode) (command : Command) :
    { r with mode := mode }.run host command = { r.run host command with mode := mode } := by
  unfold run
  cases outcome host r.ran r.block command <;> rfl

theorem runAll_snoc (r : Reading) (commands : List Command) (command : Command) :
    r.runAll host (commands ++ [command]) = (r.runAll host commands).run host command := by
  rw [runAll, List.foldl_append]
  rfl

theorem runAll_mode (r : Reading) (commands : List Command) :
    (r.runAll host commands).mode = r.mode := by
  induction commands generalizing r with
  | nil => rfl
  | cons command rest ih =>
      show ((r.run host command).runAll host rest).mode = r.mode
      rw [ih, run_mode]

theorem runAll_switch (r : Reading) (mode : Mode) (commands : List Command) :
    { r with mode := mode }.runAll host commands
      = { r.runAll host commands with mode := mode } := by
  induction commands generalizing r with
  | nil => rfl
  | cons command rest ih =>
      show ({ r with mode := mode }.run host command).runAll host rest = _
      rw [run_switch, ih]
      rfl

theorem runAll_ran (r : Reading) (commands : List Command) :
    (r.runAll host commands).ran = r.ran ++ commands := by
  induction commands generalizing r with
  | nil => rw [List.append_nil]; rfl
  | cons command rest ih =>
      show ((r.run host command).runAll host rest).ran = _
      rw [ih, run_ran, List.append_assoc]
      rfl

theorem readAll_snoc (r : Reading) (lines : List Line) (line : Line) :
    r.readAll host (lines ++ [line]) = (r.readAll host lines).read host line := by
  rw [readAll, List.foldl_append]
  rfl

theorem read_extends (r : Reading) (line : Line) : r.ran <+: (r.read host line).ran := by
  unfold read
  cases verdict false r.gate r.mode r.block line with
  | ignore => exact List.prefix_rfl
  | queue mode =>
      show r.ran <+: (r.run host (line, mode)).ran
      rw [run_ran]
      exact List.prefix_append ..
  | enterRepl => exact List.prefix_rfl
  | enterAlpine => exact List.prefix_rfl
  | leaveRepl => exact List.prefix_rfl

theorem readAll_extends (r : Reading) (lines more : List Line) :
    (r.readAll host lines).ran <+: (r.readAll host (lines ++ more)).ran := by
  rw [readAll, readAll, List.foldl_append]
  generalize lines.foldl (read host) r = r'
  induction more generalizing r' with
  | nil => exact List.prefix_rfl
  | cons line more ih => exact (read_extends r' line).trans (ih (r'.read host line))

/-! ## Every line is run

Without the setup gate, every line that is not blank and not a word of the
console itself is run when it is read, and so is a blank line while a
block is open. -/

theorem read_line {r : Reading} {line : Line} (hgate : r.gate = false) (hplain : Plain line)
    (hblank : strip line ≠ []) : r.read host line = r.run host (line, r.mode) := by
  simp only [Plain, List.mem_append, not_or] at hplain
  obtain ⟨⟨henter, hexit⟩, halpine⟩ := hplain
  have hverdict : verdict false r.gate r.mode r.block line = .queue r.mode := by
    unfold verdict
    simp [hgate, hblank, henter, hexit, halpine]
  rw [read, hverdict]

theorem read_blank {r : Reading} {line : Line} (hblank : strip line = []) :
    r.read host line = if r.block ≠ [] then r.run host (line, r.mode) else r := by
  have hverdict : verdict false r.gate r.mode r.block line
      = if r.block ≠ [] then .queue r.mode else .ignore := by
    unfold verdict
    simp [hblank]
  rw [read, hverdict]
  by_cases hblock : r.block ≠ []
  · rw [if_pos hblock, if_pos hblock]
  · rw [if_neg hblock, if_neg hblock]

theorem run_gate {r : Reading} (hgate : r.gate = false) (command : Command) :
    (r.run host command).gate = false := by
  unfold run
  cases outcome host r.ran r.block command <;> simp [hgate]

theorem readAll_plain {lines : List Line} :
    ∀ {r : Reading}, r.gate = false → (∀ line ∈ lines, Plain line) →
      ((r.readAll host lines).ran.map Prod.fst).filter nonBlank
        = (r.ran.map Prod.fst).filter nonBlank ++ lines.filter nonBlank := by
  induction lines with
  | nil => exact fun _ _ => (List.append_nil _).symm
  | cons line lines ih =>
      intro r hgate hplain
      have hrest : ∀ l ∈ lines, Plain l := fun l hl => hplain l (List.mem_cons_of_mem _ hl)
      show (((r.read host line).readAll host lines).ran.map Prod.fst).filter nonBlank = _
      by_cases hblank : strip line = []
      · have hskip : nonBlank line = false := by simp [nonBlank, hblank]
        rw [read_blank hblank]
        split
        · rw [ih (run_gate hgate _) hrest, run_ran]
          simp [hskip]
        · rw [ih hgate hrest]
          simp [hskip]
      · have hkeep : nonBlank line = true := by simp [nonBlank, hblank]
        rw [read_line hgate (hplain line (List.mem_cons_self ..)) hblank,
          ih (run_gate hgate _) hrest, run_ran]
        simp [hkeep]

end Reading

end Zmux
