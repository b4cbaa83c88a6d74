import Zmux.CommandMode
import Zmux.ConsoleTrace

/-!
# Python blocks

The lines of a Python block, typed one at a time: each of them leaves the
block incomplete but the last. Every line passes `_submit_line`, which
knows the words that switch the mode, and `_run_line`, which knows the
commands of the shell, and neither looks at the open block. So the block
is run as it was typed exactly when no line of it is such a word, the
first line is not blank, and the execution does not raise
(`block_intact_iff`).
-/

namespace Zmux

/-- `_shell_commands`. -/
def shellCommands : List Line := CommandMode.commandNames ++ CommandMode.knownTuiCommands

/-- The words of `_shell_commands` are commands. -/
def KnowsCommands (host : Host) : Prop :=
  ∀ ran, ∀ word ∈ shellCommands, host.isCommand ran word = true

/-- Both dispatchers leave the line to Python. -/
def PassedOn (host : Host) (mode : Mode) (ran : List Command) (line : Line) : Prop :=
  match mode with
  | .shell => host.isCommand ran (firstWord line) = false
  | .repl => strip line ∉ replExit

/-- The lines were run in this mode. -/
def runIn (mode : Mode) (lines : List Line) : List Command := lines.map fun line => (line, mode)

variable {host : Host}

/-! ## The words of the console -/

theorem words_of_console : (replEnter ++ alpineEnter ++ ["linux-setup".toList]).all
    (fun word => (shellCommands.any fun w => w == word) && word.all fun c => !isSpace c)
      = true := by
  decide +kernel

theorem command_of_word (hcommands : KnowsCommands host) (ran : List Command) {line : Line}
    (h : strip line ∈ replEnter ++ alpineEnter ++ ["linux-setup".toList]) :
    host.isCommand ran (firstWord line) = true := by
  have hword := List.all_eq_true.mp words_of_console _ h
  obtain ⟨hmem, hspaces⟩ := Bool.and_eq_true_iff.mp hword
  obtain ⟨word, hword, heq⟩ := List.any_eq_true.mp hmem
  have hfirst : firstWord line = strip line := firstWord_of_strip rfl fun c hc => by
    simpa using List.all_eq_true.mp hspaces c hc
  rw [hfirst, ← eq_of_beq heq]
  exact hcommands ran word hword

theorem nil_notMem_replExit : [] ∉ replExit := by decide

/-! ## How long a source can be -/

/-- The characters of the lines with their line breaks. -/
def weight : List Line → ℕ
  | [] => 0
  | line :: lines => line.length + 1 + weight lines

theorem weight_append (front back : List Line) :
    weight (front ++ back) = weight front + weight back := by
  induction front with
  | nil => exact (Nat.zero_add _).symm
  | cons line front ih =>
      rw [List.cons_append, weight, weight, ih]
      omega

theorem length_joinLines {lines : List Line} (h : lines ≠ []) :
    (joinLines lines).length + 1 = weight lines := by
  induction lines with
  | nil => exact absurd rfl h
  | cons line lines ih =>
      cases lines with
      | nil => simp [joinLines, weight]
      | cons next lines =>
          have hrest := ih (List.cons_ne_nil _ _)
          rw [joinLines] at hrest
          rw [joinLines, List.intercalate_cons_cons, weight, List.length_append,
            List.length_append, List.length_singleton]
          omega

namespace Reading

/-- The events of a command line. -/
theorem source_of_run {ran : List Command} {pythonLines : List Line} {command : Command}
    {text : List Char} (h : .source text ∈ runEvents host ran pythonLines command) :
    outcome host ran pythonLines command = .source
      ∧ text = joinLines (pythonLines ++ [command.1]) := by
  rw [runEvents] at h
  cases houtcome : outcome host ran pythonLines command with
  | command =>
      rw [houtcome] at h
      cases List.mem_singleton.mp h
  | block =>
      rw [houtcome] at h
      cases h
  | source =>
      rw [houtcome] at h
      cases List.mem_singleton.mp h
      exact ⟨rfl, rfl⟩

theorem source_notMem_alpine (ran : List Command) (text : List Char) :
    .source text ∉ alpineEvents host ran := by
  rw [alpineEvents]
  split
  · exact fun h => by cases List.mem_singleton.mp h
  · exact List.not_mem_nil

/-- A source that is run has the open block and this line at most. -/
theorem source_of_events {r : Reading} {line : Line} {text : List Char}
    (h : .source text ∈ r.events host line) : text = joinLines (r.block ++ [line]) := by
  rw [events] at h
  cases hverdict : verdict false r.gate r.mode r.block line with
  | ignore => rw [hverdict] at h; cases h
  | queue mode =>
      rw [hverdict] at h
      rcases List.mem_append.mp h with h | h
      · exact (source_of_run h).2
      · split at h
        · exact absurd h (source_notMem_alpine _ _)
        · cases h
  | enterRepl => rw [hverdict] at h; cases List.mem_singleton.mp h
  | enterAlpine => rw [hverdict] at h; exact absurd h (source_notMem_alpine _ _)
  | leaveRepl => rw [hverdict] at h; cases List.mem_singleton.mp h

theorem weight_run_le (r : Reading) (command : Command) :
    weight (r.run host command).block ≤ weight r.block + (command.1.length + 1) := by
  rw [run]
  cases outcome host r.ran r.block command with
  | block =>
      show weight (r.block ++ [command.1]) ≤ _
      rw [weight_append]
      exact Nat.le_refl _
  | command => exact Nat.le_add_right _ _
  | source =>
      dsimp only
      split
      · exact Nat.le_add_right _ _
      · exact Nat.zero_le _

theorem weight_read_le (host : Host) (r : Reading) (line : Line) :
    weight (r.read host line).block ≤ weight r.block + (line.length + 1) := by
  rw [read]
  cases verdict false r.gate r.mode r.block line with
  | queue mode => exact weight_run_le r (line, mode)
  | leaveRepl => exact Nat.zero_le _
  | _ => exact Nat.le_add_right _ _

theorem length_source_lt {r : Reading} {lines : List Line} {text : List Char}
    (h : .source text ∈ r.eventsAll host lines) : text.length < weight r.block + weight lines := by
  induction lines generalizing r with
  | nil => cases h
  | cons line lines ih =>
      rw [weight]
      rcases List.mem_append.mp h with h | h
      · have hlength := length_joinLines (List.append_ne_nil_of_right_ne_nil r.block
          (List.cons_ne_nil line []))
        rw [source_of_events h]
        rw [weight_append, weight, weight] at hlength
        omega
      · have hrest := ih h
        have hread := weight_read_le host r line
        omega

/-- The lines after one that was swallowed do not give the whole source. -/
theorem source_of_fewer (host : Host) (r : Reading) (line : Line) (lines : List Line) :
    r.eventsAll host lines ≠ [.source (joinLines (r.block ++ line :: lines))] := by
  intro hevents
  have hshort := length_source_lt
    (show .source (joinLines (r.block ++ line :: lines)) ∈ r.eventsAll host lines by
      rw [hevents]
      exact List.mem_singleton_self _)
  have hlong := length_joinLines
    (List.append_ne_nil_of_right_ne_nil r.block (List.cons_ne_nil line lines))
  rw [weight_append, weight] at hlong
  omega

/-! ## One line of a block -/

/-- A line that both dispatchers pass on is Python. -/
theorem verdict_of_passedOn (hcommands : KnowsCommands host) {r : Reading} (hgate : r.gate = false)
    {line : Line} (hopen : strip line ≠ [] ∨ r.block ≠ [])
    (hpassed : PassedOn host r.mode r.ran line) :
    verdict false r.gate r.mode r.block line = .queue r.mode := by
  dsimp only [verdict]
  by_cases hblank : strip line = []
  · rw [if_pos hblank, if_pos (hopen.resolve_left (not_not.mpr hblank))]
  have hnocommand : r.mode = .shell → strip line ∉ replEnter ++ alpineEnter := by
    intro hmode hmem
    rw [hmode] at hpassed
    have hcommand := command_of_word hcommands r.ran (List.mem_append_left _ hmem)
    cases hcommand.symm.trans hpassed
  have hnoexit : r.mode = .repl → strip line ∉ replExit := by
    intro hmode
    rw [hmode] at hpassed
    exact hpassed
  rw [if_neg hblank, if_neg (by rw [hgate]; exact Bool.false_ne_true),
    if_neg fun h => hnocommand h.1 (List.mem_append_left _ h.2),
    if_neg fun h => hnocommand h.1 (List.mem_append_right _ h.2.2),
    if_neg fun h => hnoexit h.1 h.2]

theorem outcome_of_passedOn {mode : Mode} {ran : List Command} {line : Line}
    (hpassed : PassedOn host mode ran line) (block : List Line) :
    outcome host ran block (line, mode)
      = if host.incomplete (joinLines (block ++ [line])) = true then .block else .source := by
  have hnocommand : ¬(mode = .shell ∧ host.isCommand ran (firstWord line) = true) := by
    rintro ⟨rfl, hcommand⟩
    cases hcommand.symm.trans hpassed
  rw [outcome, if_neg hnocommand]
  rfl

/-- Without a gate, a line that is queued does what it does when it is run. -/
theorem read_queued {r : Reading} (hgate : r.gate = false) {line : Line} {mode : Mode}
    (h : verdict false r.gate r.mode r.block line = .queue mode) :
    r.events host line = runEvents host r.ran r.block (line, mode)
      ∧ r.read host line = r.run host (line, mode) := by
  refine ⟨?_, ?_⟩
  · rw [events, h]
    dsimp only
    rw [if_neg (by rw [hgate]; exact fun h => Bool.false_ne_true h.1), List.append_nil]
  · rw [read, h]

/-- A line in the middle of a block. -/
theorem read_inside (hcommands : KnowsCommands host) {r : Reading} (hgate : r.gate = false)
    {line : Line} (hopen : strip line ≠ [] ∨ r.block ≠ [])
    (hpassed : PassedOn host r.mode r.ran line)
    (hincomplete : host.incomplete (joinLines (r.block ++ [line])) = true) :
    r.events host line = [] ∧ r.read host line
      = { r with block := r.block ++ [line], ran := r.ran ++ [(line, r.mode)] } := by
  obtain ⟨hevents, hread⟩ :=
    @read_queued host r hgate line _ (verdict_of_passedOn hcommands hgate hopen hpassed)
  have houtcome := outcome_of_passedOn hpassed r.block
  rw [if_pos hincomplete] at houtcome
  refine ⟨?_, ?_⟩
  · rw [hevents, runEvents, houtcome]
  · rw [hread]
    simp only [run, houtcome]

/-- The last line of a block. -/
theorem read_last (hcommands : KnowsCommands host) {r : Reading} (hgate : r.gate = false)
    {line : Line} (hopen : strip line ≠ [] ∨ r.block ≠ [])
    (hpassed : PassedOn host r.mode r.ran line)
    (hcomplete : host.incomplete (joinLines (r.block ++ [line])) = false) :
    r.events host line = [.source (joinLines (r.block ++ [line]))]
      ∧ (r.read host line).block
        = if host.raises (r.ran ++ [(line, r.mode)]) = true then r.block else [] := by
  obtain ⟨hevents, hread⟩ :=
    @read_queued host r hgate line _ (verdict_of_passedOn hcommands hgate hopen hpassed)
  have houtcome := outcome_of_passedOn hpassed r.block
  rw [hcomplete, if_neg Bool.false_ne_true] at houtcome
  refine ⟨?_, ?_⟩
  · rw [hevents, runEvents, houtcome]
  · rw [hread]
    simp only [run, houtcome]

/-- What is known of a line on the command queue. -/
theorem of_verdict_queue {r : Reading} (hgate : r.gate = false) {line : Line} {mode : Mode}
    (h : verdict false r.gate r.mode r.block line = .queue mode) :
    mode = r.mode ∧ (strip line ≠ [] ∨ r.block ≠ [])
      ∧ (r.mode = .repl → strip line ∉ replExit) := by
  dsimp only [verdict] at h
  rw [hgate] at h
  simp only [Bool.false_eq_true, if_false] at h
  split_ifs at h with hblank hblock _ _ hexit
  · refine ⟨(Verdict.queue.inj h).symm, .inr hblock, fun _ hmem => ?_⟩
    exact nil_notMem_replExit (hblank ▸ hmem)
  · exact ⟨(Verdict.queue.inj h).symm, .inl hblank, fun hmode hmem => hexit ⟨hmode, hmem⟩⟩

/-- Any other line is swallowed, or something else happens first. -/
theorem read_otherwise {r : Reading} (hgate : r.gate = false) {line : Line}
    (h : ¬((strip line ≠ [] ∨ r.block ≠ []) ∧ PassedOn host r.mode r.ran line)) :
    (r.events host line = [] ∧ r.read host line = r)
      ∨ ∃ e es, r.events host line = e :: es ∧ ∀ text, e ≠ .source text := by
  have halpine : ∀ ran, alpineEvents host ran = []
      ∨ ∃ e es, alpineEvents host ran = e :: es ∧ ∀ text, e ≠ .source text := by
    intro ran
    rw [alpineEvents]
    split
    · exact .inr ⟨.startAlpine, [], rfl, fun _ h => by cases h⟩
    · exact .inl rfl
  cases hverdict : verdict false r.gate r.mode r.block line with
  | ignore => exact .inl ⟨by rw [events, hverdict], by rw [read, hverdict]⟩
  | enterRepl => exact .inr ⟨.enterRepl, [], by rw [events, hverdict], fun _ h => by cases h⟩
  | leaveRepl => exact .inr ⟨.leaveRepl, [], by rw [events, hverdict], fun _ h => by cases h⟩
  | enterAlpine =>
      rcases halpine r.ran with hnone | ⟨e, es, hes, hother⟩
      · exact .inl ⟨by rw [events, hverdict]; exact hnone, by rw [read, hverdict]⟩
      · exact .inr ⟨e, es, by rw [events, hverdict]; exact hes, hother⟩
  | queue mode =>
      obtain ⟨rfl, hopen, hnoexit⟩ := of_verdict_queue hgate hverdict
      have hcommand : r.mode = .shell ∧ host.isCommand r.ran (firstWord line) = true := by
        by_contra hno
        refine h ⟨hopen, ?_⟩
        cases hmode : r.mode with
        | repl => exact hnoexit hmode
        | shell =>
            rw [hmode] at hno
            exact eq_false_of_ne_true fun hcommand => hno ⟨rfl, hcommand⟩
      have houtcome : outcome host r.ran r.block (line, r.mode) = .command := by
        rw [outcome, if_pos hcommand]
      refine .inr ⟨.command line, [], ?_, fun _ h => by cases h⟩
      rw [(read_queued hgate hverdict).1, runEvents, houtcome]

/-! ## The whole block -/

/-- Where each line of the block is read. -/
theorem events_of_passedOn (hcommands : KnowsCommands host) {lines : List Line} :
    ∀ {r : Reading}, r.gate = false → lines ≠ [] →
      (∀ line ∈ lines.head?, strip line ≠ [] ∨ r.block ≠ []) →
      (∀ front line back, lines = front ++ line :: back →
        PassedOn host r.mode (r.ran ++ runIn r.mode front) line) →
      (∀ front back, lines = front ++ back → front ≠ [] →
        (host.incomplete (joinLines (r.block ++ front)) = true ↔ back ≠ [])) →
      r.eventsAll host lines = [.source (joinLines (r.block ++ lines))]
        ∧ (r.readAll host lines).block
          = if host.raises (r.ran ++ runIn r.mode lines) = true then r.block ++ lines.dropLast
            else [] := by
  induction lines with
  | nil => exact fun _ hne => absurd rfl hne
  | cons line lines ih =>
      intro r hgate _ hopen hpassed hblock
      have hopen' : strip line ≠ [] ∨ r.block ≠ [] := hopen line rfl
      have hfirst : PassedOn host r.mode r.ran line := by
        have h := hpassed [] line lines rfl
        rwa [runIn, List.map_nil, List.append_nil] at h
      have hinside := hblock [line] lines rfl (List.cons_ne_nil _ _)
      cases lines with
      | nil =>
          have hcomplete := eq_false_of_ne_true fun h => hinside.mp h rfl
          obtain ⟨hevents, hread⟩ := read_last hcommands hgate hopen' hfirst hcomplete
          refine ⟨?_, ?_⟩
          · rw [eventsAll, hevents]
            rfl
          · rw [List.dropLast_singleton, List.append_nil]
            exact hread
      | cons next lines =>
          obtain ⟨hevents, hread⟩ :=
            read_inside hcommands hgate hopen' hfirst (hinside.mpr (List.cons_ne_nil _ _))
          have hnext := ih (r := r.read host line) (by rw [hread]; exact hgate)
            (List.cons_ne_nil _ _) (fun _ _ => .inr ?_) (fun front line' back hsplit => ?_)
            (fun front back hsplit hne => ?_)
          · obtain ⟨hsource, hend⟩ := hnext
            refine ⟨?_, ?_⟩
            · rw [eventsAll, hevents, hsource, hread, List.append_assoc]
              rfl
            · rw [readAll, List.foldl_cons]
              refine hend.trans ?_
              rw [hread, List.append_assoc, List.append_assoc]
              rfl
          · rw [hread]
            exact List.append_ne_nil_of_right_ne_nil _ (List.cons_ne_nil _ _)
          · have h := hpassed (line :: front) line' back (congrArg (line :: ·) hsplit)
            rw [hread, List.append_assoc]
            exact h
          · rw [hread, List.append_assoc]
            exact hblock (line :: front) back (congrArg (line :: ·) hsplit) (List.cons_ne_nil _ _)

/-- And nothing else gives the whole block. -/
theorem passedOn_of_events (hcommands : KnowsCommands host) {lines : List Line} :
    ∀ {r : Reading}, r.gate = false →
      (∀ front back, lines = front ++ back → front ≠ [] →
        (host.incomplete (joinLines (r.block ++ front)) = true ↔ back ≠ [])) →
      r.eventsAll host lines = [.source (joinLines (r.block ++ lines))] →
      (∀ line ∈ lines.head?, strip line ≠ [] ∨ r.block ≠ [])
        ∧ ∀ front line back, lines = front ++ line :: back →
          PassedOn host r.mode (r.ran ++ runIn r.mode front) line := by
  induction lines with
  | nil => exact fun _ _ hevents => by cases hevents
  | cons line lines ih =>
      intro r hgate hblock hevents
      have hfirst : (strip line ≠ [] ∨ r.block ≠ []) ∧ PassedOn host r.mode r.ran line := by
        by_contra hno
        rcases read_otherwise hgate hno with ⟨hnone, hread⟩ | ⟨e, es, hes, hother⟩
        · rw [eventsAll, hnone, hread, List.nil_append] at hevents
          exact source_of_fewer host r line lines hevents
        · rw [eventsAll, hes] at hevents
          exact hother _ (List.cons.inj hevents).1
      refine ⟨fun _ hmem => Option.some.inj hmem ▸ hfirst.1, fun front line' back hsplit => ?_⟩
      cases front with
      | nil =>
          obtain ⟨rfl, -⟩ := List.cons.inj hsplit
          rw [runIn, List.map_nil, List.append_nil]
          exact hfirst.2
      | cons first front =>
          obtain ⟨rfl, hsplit'⟩ := List.cons.inj hsplit
          have hmore : lines ≠ [] := by
            rw [hsplit']
            exact List.append_ne_nil_of_right_ne_nil _ (List.cons_ne_nil _ _)
          obtain ⟨hnone, hread⟩ := read_inside hcommands hgate hfirst.1 hfirst.2
            ((hblock [line] lines rfl (List.cons_ne_nil _ _)).mpr hmore)
          rw [eventsAll, hnone, List.nil_append] at hevents
          obtain ⟨-, hrest⟩ := ih (r := r.read host line) (by rw [hread]; exact hgate)
            (fun front back hsplit _ => by
              rw [hread, List.append_assoc]
              exact hblock (line :: front) back (congrArg (line :: ·) hsplit)
                (List.cons_ne_nil _ _))
            (by rw [hevents, hread, List.append_assoc]; rfl)
          have hpassed := hrest front line' back hsplit'
          rw [hread, List.append_assoc] at hpassed
          exact hpassed

end Reading

/-- Every beginning of the lines is incomplete, and all of them are not. -/
def IsBlock (host : Host) (lines : List Line) : Prop :=
  ∀ i < lines.length,
    host.incomplete (joinLines (lines.take (i + 1))) = true ↔ i + 1 < lines.length

instance (host : Host) (lines : List Line) : Decidable (IsBlock host lines) :=
  inferInstanceAs (Decidable (∀ i < lines.length, _))

theorem IsBlock.split {lines : List Line} (h : IsBlock host lines) {front back : List Line}
    (hsplit : lines = front ++ back) (hne : front ≠ []) :
    host.incomplete (joinLines front) = true ↔ back ≠ [] := by
  have hpos := List.length_pos_of_ne_nil hne
  have hlength : lines.length = front.length + back.length := by
    rw [hsplit, List.length_append]
  have hfront := h (front.length - 1) (by omega)
  rw [Nat.sub_add_cancel hpos, hsplit, List.take_left, ← hsplit, hlength] at hfront
  rw [hfront, ← List.length_pos_iff]
  omega

namespace Console

/-- At rest, with nothing typed ahead and no open block. -/
structure Idle (host : Host) (s : Console) : Prop where
  reached : ∃ awaiting, Reach (step host) Free (start awaiting) s
  rest : s.AtRest
  drained : s.stdinQueue = []
  closed : s.pythonLines = []

/-- However the lines are typed at rest: the source of all of them is
executed, nothing else happens, and the block is closed. -/
def Intact (host : Host) (s₀ : Console) (lines : List Line) : Prop :=
  ∀ s es, Reach (traced host) OneAtATime (s₀, []) (s, es) → s.AtRest →
    s.typed = s₀.typed ++ lines → es = [.source (joinLines lines)] ∧ s.pythonLines = []

/-- The setup is done, the block begins with a line that is not blank,
each line is Python for both dispatchers, and the execution of several
lines does not raise. -/
structure Undisturbed (host : Host) (s₀ : Console) (first : Line) (rest : List Line) : Prop where
  ready : s₀.awaitingAlpine = false
  begins : strip first ≠ []
  passed : ∀ front line back, first :: rest = front ++ line :: back →
    PassedOn host s₀.mode (s₀.ran ++ runIn s₀.mode front) line
  ends : rest = [] ∨ host.raises (s₀.ran ++ runIn s₀.mode (first :: rest)) = false

variable {s₀ : Console} {first : Line} {rest : List Line}

theorem reading_of_clean {s : Console} (h : Clean s) :
    s.reading = ⟨s.mode, s.pythonLines, s.awaitingAlpine, s.ran⟩ := by
  rw [reading, h.rest.2.1]
  rfl

theorem intact_iff_events (hclean : Clean s₀) (lines : List Line) :
    Intact host s₀ lines ↔ s₀.reading.eventsAll host lines = [.source (joinLines lines)]
      ∧ (s₀.reading.readAll host lines).block = [] := by
  constructor
  · intro h
    obtain ⟨s, es, hrun, hrest, htyped⟩ := exists_run host hclean lines
    obtain ⟨hes, hreading, hclean'⟩ := events_of_run hclean hrun hrest htyped
    obtain ⟨hsource, hclosed⟩ := h s es hrun hrest htyped
    rw [← hes, ← hreading, reading_of_clean hclean']
    exact ⟨hsource, hclosed⟩
  · rintro ⟨hsource, hclosed⟩ s es hrun hrest htyped
    obtain ⟨hes, hreading, hclean'⟩ := events_of_run hclean hrun hrest htyped
    rw [← hreading, reading_of_clean hclean'] at hclosed
    exact ⟨hes.trans hsource, hclosed⟩

/-- The first line is swallowed while only `linux-setup` is available. -/
theorem swallowed_of_gate (hcommands : KnowsCommands host) {r : Reading} (hgate : r.gate = true)
    (hblock : r.block = []) (hfirst : host.isCommand r.ran (firstWord first) = false) :
    r.events host first = [] ∧ r.read host first = r := by
  have hnosetup : strip first ≠ "linux-setup".toList := by
    intro hsetup
    have hcommand := command_of_word hcommands r.ran (List.mem_append_right _
      (List.mem_singleton.mpr hsetup))
    cases hcommand.symm.trans hfirst
  have hverdict : verdict false r.gate r.mode r.block first = .ignore := by
    dsimp only [verdict]
    rw [hgate, hblock, if_pos rfl, if_neg hnosetup]
    split <;> rfl
  exact ⟨by rw [Reading.events, hverdict], by rw [Reading.read, hverdict]⟩

/-- **A Python block** typed line by line stays intact exactly when nothing
in it disturbs the console. -/
theorem block_intact_iff (hcommands : KnowsCommands host) (hidle : Idle host s₀)
    (hfirst : s₀.mode = .shell → host.isCommand s₀.ran (firstWord first) = false)
    (hblock : IsBlock host (first :: rest)) :
    Intact host s₀ (first :: rest) ↔ Undisturbed host s₀ first rest := by
  obtain ⟨⟨awaiting, hreach⟩, hrest, hdrained, hclosed⟩ := hidle
  have hclean := clean_of_reach hreach hrest hdrained
  have hreading := reading_of_clean hclean
  have hempty : s₀.reading.block = [] := by rw [hreading]; exact hclosed
  have hincomplete : ∀ front back, first :: rest = front ++ back → front ≠ [] →
      (host.incomplete (joinLines (s₀.reading.block ++ front)) = true ↔ back ≠ []) := by
    intro front back hsplit hne
    rw [hempty]
    exact hblock.split hsplit hne
  rw [intact_iff_events hclean]
  constructor
  · rintro ⟨hevents, hend⟩
    have hready : s₀.awaitingAlpine = false := by
      by_contra hno
      have hgate : s₀.reading.gate = true := by rw [hreading]; exact eq_true_of_ne_false hno
      have hshell := hfirst (hclean.gate (eq_true_of_ne_false hno))
      obtain ⟨hnone, hsame⟩ := swallowed_of_gate hcommands hgate hempty
        (show host.isCommand s₀.reading.ran (firstWord first) = false by
          rw [hreading]; exact hshell)
      rw [Reading.eventsAll, hnone, hsame, List.nil_append] at hevents
      refine Reading.source_of_fewer host s₀.reading first rest ?_
      rw [hempty]
      exact hevents
    have hgate : s₀.reading.gate = false := by rw [hreading]; exact hready
    obtain ⟨hbegins, hpassed⟩ := Reading.passedOn_of_events hcommands hgate hincomplete
      (by rw [hempty]; exact hevents)
    have hbegins' := (hbegins first rfl).resolve_right (not_not.mpr hempty)
    obtain ⟨-, hblockEnd⟩ := Reading.events_of_passedOn hcommands hgate (List.cons_ne_nil _ _)
      hbegins hpassed hincomplete
    rw [hreading] at hpassed
    refine ⟨hready, hbegins', hpassed, ?_⟩
    rw [hend, hempty, hreading] at hblockEnd
    by_cases hraises : host.raises (s₀.ran ++ runIn s₀.mode (first :: rest)) = true
    · rw [if_pos hraises] at hblockEnd
      cases rest with
      | nil => exact .inl rfl
      | cons next rest => cases hblockEnd
    · exact .inr (eq_false_of_ne_true hraises)
  · rintro ⟨hready, hbegins, hpassed, hends⟩
    have hgate : s₀.reading.gate = false := by rw [hreading]; exact hready
    have hpassed' : ∀ front line back, first :: rest = front ++ line :: back →
        PassedOn host s₀.reading.mode (s₀.reading.ran ++ runIn s₀.reading.mode front) line := by
      rw [hreading]
      exact hpassed
    obtain ⟨hsource, hblockEnd⟩ := Reading.events_of_passedOn hcommands hgate
      (List.cons_ne_nil _ _) (fun _ hmem => .inl (Option.some.inj hmem ▸ hbegins)) hpassed'
      hincomplete
    rw [hempty] at hsource
    refine ⟨hsource, hblockEnd.trans ?_⟩
    rw [hempty, hreading]
    rcases hends with rfl | hraises
    · exact ite_self _
    · exact if_neg (Bool.eq_false_iff.mp hraises)

/-! ## A block with the command `env` -/

/-- Python that leaves a block open until it sees a blank line. -/
def blockHost : Host where
  isCommand _ word := decide (word ∈ shellCommands)
  incomplete text := ':' ∈ text && text.getLast? ≠ some '\n'
  raises _ := false
  alpineInstalled _ := false
  alpineStarts _ := false

theorem blockHost_knowsCommands : KnowsCommands blockHost := fun _ _ hword => decide_eq_true hword

theorem idle_start : Idle blockHost (start false) where
  reached := ⟨false, .start⟩
  rest := ⟨rfl, rfl, rfl⟩
  drained := rfl
  closed := rfl

def envBlock : List Line := ["def f():".toList, "  env = 1".toList, []]

/-- The second line is run as the command `env`. -/
theorem env_runs_in_block :
    IsBlock blockHost envBlock ∧ ¬Intact blockHost (start false) envBlock := by
  refine ⟨by decide, fun h => ?_⟩
  have hclean := clean_of_reach (show Reach (step blockHost) Free (start false) _ from .start)
    ⟨rfl, rfl, rfl⟩ rfl
  have hevents := ((intact_iff_events hclean envBlock).mp h).1
  have hran : ((start false).reading.eventsAll blockHost envBlock).head?
      = some (.command "  env = 1".toList) := by decide +kernel
  rw [hevents] at hran
  cases hran

def plainBlock : List Line := ["if x:".toList, []]

theorem plainBlock_noCommand : plainBlock.all
    (fun line => !blockHost.isCommand [] (firstWord line)) = true := by decide

theorem plain_block_intact : Intact blockHost (start false) plainBlock := by
  have hpassed : ∀ ran, ∀ line ∈ plainBlock, PassedOn blockHost .shell ran line :=
    fun _ line hline => show blockHost.isCommand [] (firstWord line) = false by
      simpa using List.all_eq_true.mp plainBlock_noCommand line hline
  refine (block_intact_iff blockHost_knowsCommands idle_start
    (fun _ => hpassed [] _ List.mem_cons_self) (show IsBlock blockHost plainBlock by decide)).mpr
    ⟨rfl, by decide, fun front line back hsplit => hpassed _ line ?_, .inr rfl⟩
  rw [plainBlock, hsplit]
  exact List.mem_append_right _ List.mem_cons_self

end Console

end Zmux
