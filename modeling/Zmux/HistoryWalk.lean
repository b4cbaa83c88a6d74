import Mathlib.Data.List.Chain
import Zmux.ConsoleWorker
import Zmux.KeyOrigins

/-!
# The walk through the history

Up and Down replace the pending line by earlier ones. Three fields record
where the user is: the cursor `_history_index`, the stash with the line
that was being typed, and the line buffer. The position is given here by
its depth, the number of entries above the line being typed
(`Keyboard.Level`): the cursor of depth 0 is `None`. At every depth the
line being typed is kept, in the buffer or in the stash
(`Keyboard.Away`), so that Ups and Downs that cancel out bring it back.

A line starts afresh after Enter and after Ctrl+C. What a fresh line
should do (`Keyboard.FreshLine`) it does just when the cursor is `None`
(`fresh_line_iff`). `_history_record` sees to that; Ctrl+C and Enter on a
blank line do not come by there, and leave a cursor that was set
(`history_navigation`).
-/

namespace Zmux

namespace Keyboard

variable {host : Host} {s s' : Keyboard}

/-! ## Keys -/

/-- The keys that edit and submit a line. Terminals differ in what some of
them send, and so do the two dialects of the arrows. -/
inductive EditKey where
  | char (c : Char) (h : isPrintable c = true)
  | backspace (c : Char) (h : c = '\x7f' ∨ c = '\x08')
  | up (dialect : Char) (h : dialect = '[' ∨ dialect = 'O')
  | down (dialect : Char) (h : dialect = '[' ∨ dialect = 'O')
  | enter (c : Char) (h : c = '\r' ∨ c = '\n')
  | interrupt

namespace EditKey

def chars : EditKey → List Char
  | .char c _ => [c]
  | .backspace c _ => [c]
  | .up dialect _ => [escape, dialect, 'A']
  | .down dialect _ => [escape, dialect, 'B']
  | .enter c _ => [c]
  | .interrupt => [ctrlC]

/-- The key ends the pending line. -/
def startsLine : EditKey → Bool
  | .enter .. => true
  | .interrupt => true
  | _ => false

def isUp : EditKey → Bool
  | .up .. => true
  | _ => false

def isDown : EditKey → Bool
  | .down .. => true
  | _ => false

/-- The arrows of xterm. -/
def xtermUp : EditKey := .up '[' (Or.inl rfl)

def xtermDown : EditKey := .down '[' (Or.inl rfl)

/-- Where the key leads from depth `d` of a history of `n` entries. -/
def depth (n d : ℕ) : EditKey → ℕ
  | .up .. => min (d + 1) n
  | .down .. => d - 1
  | .enter .. => 0
  | .interrupt => 0
  | .char .. => d
  | .backspace .. => d

theorem depth_startsLine {k : EditKey} (hk : k.startsLine = true) {n d : ℕ} :
    k.depth n d = 0 := by
  cases k with
  | enter => rfl
  | interrupt => rfl
  | _ => cases hk

end EditKey

def press (host : Host) (s : Keyboard) (k : EditKey) : Keyboard :=
  k.chars.foldl (handleChar host) s

theorem historyStep_escState (s : Keyboard) (state : EscState) (direction : Int) :
    ({ s with escState := state } : Keyboard).historyStep direction
      = { s.historyStep direction with escState := state } := by
  unfold historyStep
  dsimp only
  split
  · rfl
  split
  · rfl
  split <;> rfl

theorem historyStep_frame (s : Keyboard) (direction : Int) :
    (s.historyStep direction).console = s.console
      ∧ (s.historyStep direction).escState = s.escState := by
  unfold historyStep
  dsimp only
  split
  · exact ⟨rfl, rfl⟩
  split
  · exact ⟨rfl, rfl⟩
  split <;> exact ⟨rfl, rfl⟩

theorem handleChar_inside (host : Host) {char : Char}
    (h : s.escState ≠ .ground ∨ char = escape) :
    s.handleChar host char = s.handleEscapeChar char := if_pos h

/-- An arrow in either dialect. -/
theorem press_arrow (host : Host) (hground : s.escState = .ground) {dialect char : Char}
    (hdialect : dialect = '[' ∨ dialect = 'O') (hchar : char = 'A' ∨ char = 'B') :
    [escape, dialect, char].foldl (handleChar host) s = s.arrow char := by
  have hfirst : s.handleChar host escape = { s with escState := .esc } := by
    rw [handleChar_inside host (Or.inr rfl), handleEscapeChar_eq (Or.inr rfl), hground]
    rfl
  have hsecond : ∃ state, (state = .csi ∨ state = .ss3)
      ∧ ({ s with escState := .esc } : Keyboard).handleChar host dialect
        = { s with escState := state } := by
    rw [handleChar_inside host (Or.inl (by simp)), handleEscapeChar_eq (Or.inl (by simp))]
    rcases hdialect with rfl | rfl
    · exact ⟨.csi, Or.inl rfl, rfl⟩
    · exact ⟨.ss3, Or.inr rfl, rfl⟩
  obtain ⟨state, hstate, hsecond⟩ := hsecond
  have hinside : state ≠ .ground := by rcases hstate with rfl | rfl <;> simp
  have hnext : state.next char = .ground := by
    rcases hstate with rfl | rfl <;> rcases hchar with rfl | rfl <;> rfl
  have hlast : ({ s with escState := state } : Keyboard).arrow char
      = { s.arrow char with escState := state } := by
    unfold arrow
    rcases hchar with rfl | rfl
    · exact historyStep_escState s state (-1)
    · exact historyStep_escState s state 1
  have hback : (s.arrow char).escState = .ground := by
    unfold arrow
    rcases hchar with rfl | rfl
    · exact (historyStep_frame s (-1)).2.trans hground
    · exact (historyStep_frame s 1).2.trans hground
  have hthird : ({ s with escState := state } : Keyboard).handleChar host char
      = { ({ s with escState := state } : Keyboard).arrow char with escState := .ground } := by
    rw [handleChar_inside host (Or.inl hinside), handleEscapeChar_eq (Or.inl hinside)]
    dsimp only
    rw [hnext]
    rcases hstate with rfl | rfl <;> rfl
  rw [List.foldl_cons, hfirst, List.foldl_cons, hsecond, List.foldl_cons, List.foldl_nil, hthird,
    hlast, ← hback]

section Press

variable (host)

theorem press_up (hground : s.escState = .ground) {dialect : Char}
    (h : dialect = '[' ∨ dialect = 'O') : s.press host (.up dialect h) = s.historyStep (-1) :=
  press_arrow host hground h (Or.inl rfl)

theorem press_down (hground : s.escState = .ground) {dialect : Char}
    (h : dialect = '[' ∨ dialect = 'O') : s.press host (.down dialect h) = s.historyStep 1 :=
  press_arrow host hground h (Or.inr rfl)

theorem press_char (hground : s.escState = .ground) {c : Char} (h : isPrintable c = true) :
    s.press host (.char c h) = { s with lineBuffer := s.lineBuffer ++ [c] }.emit [c] := by
  have hne : ∀ d : Char, isPrintable d = false → c ≠ d := fun d => ne_of_isPrintable h
  simp only [press, EditKey.chars, List.foldl_cons, List.foldl_nil, handleChar, hground]
  simp [hne escape (by decide), hne ctrlC (by decide), hne '\x04' (by decide),
    hne '\x7f' (by decide), hne '\x08' (by decide), hne '\r' (by decide), hne '\n' (by decide),
    space_le_of_isPrintable h]

theorem press_backspace (hground : s.escState = .ground) {c : Char} (h : c = '\x7f' ∨ c = '\x08') :
    s.press host (.backspace c h)
      = if s.lineBuffer ≠ [] then
          { s with lineBuffer := s.lineBuffer.dropLast }.emit "\x08 \x08".toList
        else s := by
  rcases h with rfl | rfl <;>
    · simp only [press, EditKey.chars, List.foldl_cons, List.foldl_nil, handleChar, hground]
      rfl

theorem press_enter (hground : s.escState = .ground) {c : Char} (h : c = '\r' ∨ c = '\n') :
    s.press host (.enter c h)
      = { (s.emit "\r\n".toList).submitLine host with lineBuffer := [] } := by
  rcases h with rfl | rfl <;>
    · simp only [press, EditKey.chars, List.foldl_cons, List.foldl_nil, handleChar, hground]
      rfl

theorem press_interrupt (hground : s.escState = .ground) :
    s.press host .interrupt = s.interruptRunning := by
  simp only [press, EditKey.chars, List.foldl_cons, List.foldl_nil, handleChar, hground]
  rfl

end Press

/-! ## Depth -/

/-- The user is `d` entries above the line being typed. -/
structure Level (s : Keyboard) (d : ℕ) : Prop where
  le : d ≤ s.console.history.length
  cursor : s.historyIndex = if d = 0 then none else some (s.console.history.length - d)

theorem level_zero_iff {d : ℕ} (h : s.Level d) : d = 0 ↔ s.historyIndex = none := by
  rw [h.cursor]
  by_cases hd : d = 0 <;> simp [hd]

/-- Every valid cursor has a depth. -/
theorem exists_level (h : ∀ i, s.historyIndex = some i → i < s.console.history.length) :
    ∃ d, s.Level d := by
  cases hindex : s.historyIndex with
  | none => exact ⟨0, Nat.zero_le _, by rw [hindex, if_pos rfl]⟩
  | some i =>
      have hi := h i hindex
      refine ⟨s.console.history.length - i, Nat.sub_le .., ?_⟩
      rw [hindex, if_neg (by omega)]
      congr 1
      omega

/-- The entry at depth `d`. -/
def entry (s : Keyboard) (d : ℕ) : Line := s.console.history.getD (s.console.history.length - d) []

theorem level_position {d : ℕ} (h : s.Level d) :
    ((s.historyIndex.getD s.console.history.length : ℕ) : Int)
      = s.console.history.length - d := by
  have hle := h.le
  rw [h.cursor]
  split
  · rename_i hd
    simp [hd]
  · rw [Option.getD_some]
    omega

/-- **Up** goes one entry further, as far as there are any. -/
theorem level_up {d : ℕ} (hidle : s.console.busy = false) (h : s.Level d) :
    (s.historyStep (-1)).Level (min (d + 1) s.console.history.length)
    ∧ (s.console.history ≠ [] →
      (s.historyStep (-1)).lineBuffer = s.entry (min (d + 1) s.console.history.length)
      ∧ (s.historyStep (-1)).historyStash = if d = 0 then s.lineBuffer else s.historyStash) := by
  have hle := h.le
  have hcursor := h.cursor
  by_cases hempty : s.console.history = []
  · have hstay : s.historyStep (-1) = s := if_pos (Or.inr hempty)
    have hd : min (d + 1) s.console.history.length = d := by
      rw [hempty, List.length_nil] at hle ⊢
      omega
    rw [hstay, hd]
    exact ⟨h, fun hne => (hne hempty).elim⟩
  · have hlength : 0 < s.console.history.length := List.length_pos_iff.mpr hempty
    have hgoes : ¬(s.console.busy = true ∨ s.console.history = []) := by simp [hidle, hempty]
    have hinside : ¬((s.console.history.length : Int) ≤ s.console.history.length - d + -1) := by
      omega
    have hindex : (max 0 ((s.console.history.length : Int) - d + -1)).toNat
        = s.console.history.length - min (d + 1) s.console.history.length := by omega
    have hstep : s.historyStep (-1)
        = { s with
            historyStash := if s.historyIndex = none then s.lineBuffer else s.historyStash
            historyIndex := some (s.console.history.length
              - min (d + 1) s.console.history.length) }.replaceLine
          (s.entry (min (d + 1) s.console.history.length)) := by
      unfold historyStep
      dsimp only
      rw [if_neg hgoes, if_neg (by simp), level_position h, if_neg hinside, hindex]
      rfl
    rw [hstep]
    have hpositive : min (d + 1) s.console.history.length ≠ 0 := by omega
    refine ⟨⟨Nat.min_le_right .., ?_⟩, fun _ => ⟨rfl, ?_⟩⟩
    · exact (if_neg hpositive).symm
    · simp only [replaceLine, emit, level_zero_iff h]

/-- **Down** goes one entry back, to the line being typed at last. -/
theorem level_down {d : ℕ} (hidle : s.console.busy = false) (h : s.Level d) :
    (s.historyStep 1).Level (d - 1)
    ∧ (s.historyStep 1).historyStash = s.historyStash
    ∧ (s.historyStep 1).lineBuffer
      = if d = 0 then s.lineBuffer else if d = 1 then s.historyStash else s.entry (d - 1) := by
  have hle := h.le
  by_cases hd : d = 0
  · subst hd
    have hstay : s.historyStep 1 = s := by
      have hnone := (level_zero_iff h).mp rfl
      unfold historyStep
      dsimp only
      split
      · rfl
      · rw [if_pos ⟨hnone, by decide⟩]
    rw [hstay]
    exact ⟨h, rfl, rfl⟩
  · have hnone : s.historyIndex ≠ none := fun hnone => hd ((level_zero_iff h).mpr hnone)
    have hempty : s.console.history ≠ [] := fun hempty => by
      rw [hempty, List.length_nil] at hle
      omega
    have hgoes : ¬(s.console.busy = true ∨ s.console.history = []) := by simp [hidle, hempty]
    have hstep : s.historyStep 1
        = if (s.console.history.length : Int) ≤ s.console.history.length - d + 1 then
            { s with historyIndex := none }.replaceLine s.historyStash
          else { s with historyIndex := some (s.console.history.length - (d - 1)) }.replaceLine
            (s.entry (d - 1)) := by
      have hindex : (max 0 ((s.console.history.length : Int) - d + 1)).toNat
          = s.console.history.length - (d - 1) := by omega
      unfold historyStep
      dsimp only
      rw [if_neg hgoes, if_neg (fun hstays => hnone hstays.1), if_neg hnone, level_position h,
        hindex]
      rfl
    rw [hstep, if_neg hd]
    by_cases hone : d = 1
    · rw [if_pos (by omega), if_pos hone]
      exact ⟨⟨by simp [replaceLine, emit, hone], by simp [replaceLine, emit, hone]⟩, rfl, rfl⟩
    · rw [if_neg (by omega), if_neg hone]
      refine ⟨⟨?_, ?_⟩, rfl, rfl⟩
      · exact le_trans (Nat.sub_le ..) hle
      · rw [if_neg (by omega)]
        rfl

/-! ## Ups and Downs -/

/-- No command runs, and the parser is at rest. -/
structure Idle (s : Keyboard) : Prop where
  busy : s.console.busy = false
  ground : s.escState = .ground

/-- The user is at depth `d`, and the line being typed is `text`. -/
structure Away (s : Keyboard) (text : Line) (d : ℕ) : Prop where
  level : s.Level d
  line : d = 0 → s.lineBuffer = text
  stash : d ≠ 0 → s.historyStash = text

theorem Idle.historyStep (h : s.Idle) (direction : Int) : (s.historyStep direction).Idle := by
  obtain ⟨hconsole, hstate⟩ := historyStep_frame s direction
  exact ⟨hconsole ▸ h.busy, hstate ▸ h.ground⟩

theorem away_up {text : Line} {d : ℕ} (hidle : s.Idle) (h : s.Away text d) :
    (s.historyStep (-1)).Away text (min (d + 1) s.console.history.length) := by
  obtain ⟨hlevel, hmoved⟩ := level_up hidle.busy h.level
  refine ⟨hlevel, fun hzero => ?_, fun hpositive => ?_⟩
  · have hle := h.level.le
    have hempty : s.console.history = [] := List.length_eq_zero_iff.mp (by omega)
    have hstay : s.historyStep (-1) = s := if_pos (Or.inr hempty)
    rw [hstay]
    exact h.line (by omega)
  · have hsome : s.console.history ≠ [] := fun hempty => by simp [hempty] at hpositive
    rw [(hmoved hsome).2]
    split
    · exact h.line ‹_›
    · exact h.stash ‹_›

theorem away_down {text : Line} {d : ℕ} (hidle : s.Idle) (h : s.Away text d) :
    (s.historyStep 1).Away text (d - 1) := by
  obtain ⟨hlevel, hstash, hline⟩ := level_down hidle.busy h.level
  refine ⟨hlevel, fun hzero => ?_, fun hpositive => ?_⟩
  · rw [hline]
    split
    · exact h.line ‹_›
    · rw [if_pos (by omega)]
      exact h.stash ‹_›
  · rw [hstash]
    exact h.stash (by omega)

theorem press_isUp (host : Host) (hidle : s.Idle) {k : EditKey} (hk : k.isUp = true) :
    s.press host k = s.historyStep (-1) := by
  cases k with
  | up dialect h => exact press_up host hidle.ground h
  | _ => cases hk

theorem press_isDown (host : Host) (hidle : s.Idle) {k : EditKey} (hk : k.isDown = true) :
    s.press host k = s.historyStep 1 := by
  cases k with
  | down dialect h => exact press_down host hidle.ground h
  | _ => cases hk

theorem ups_away (host : Host) {text : Line} : ∀ {ups : List EditKey} {s : Keyboard} {d : ℕ},
    (∀ k ∈ ups, k.isUp = true) → s.Idle → s.Away text d →
    (ups.foldl (press host) s).Idle
      ∧ (ups.foldl (press host) s).Away text (min (d + ups.length) s.console.history.length)
  | [], s, d, _, hidle, h => by
      rw [List.length_nil, Nat.add_zero, Nat.min_eq_left h.level.le]
      exact ⟨hidle, h⟩
  | k :: ups, s, d, hups, hidle, h => by
      rw [List.foldl_cons, press_isUp host hidle (hups k (List.mem_cons_self ..))]
      obtain ⟨hidle', haway⟩ := ups_away host (fun k hk => hups k (List.mem_cons_of_mem _ hk))
        (hidle.historyStep (-1)) (away_up hidle h)
      rw [(historyStep_frame s (-1)).1] at haway
      have hdepth : min (min (d + 1) s.console.history.length + ups.length)
            s.console.history.length
          = min (d + (k :: ups).length) s.console.history.length := by
        rw [List.length_cons]
        omega
      exact ⟨hidle', hdepth ▸ haway⟩

theorem downs_away (host : Host) {text : Line} :
    ∀ {downs : List EditKey} {s : Keyboard} {d : ℕ},
      (∀ k ∈ downs, k.isDown = true) → s.Idle → s.Away text d →
      (downs.foldl (press host) s).Away text (d - downs.length)
  | [], _, _, _, _, h => h
  | k :: downs, s, d, hdowns, hidle, h => by
      rw [List.foldl_cons, press_isDown host hidle (hdowns k (List.mem_cons_self ..)),
        List.length_cons, Nat.add_comm, ← Nat.sub_sub]
      exact downs_away host (fun k hk => hdowns k (List.mem_cons_of_mem _ hk))
        (hidle.historyStep 1) (away_down hidle h)

/-- **Ups and Downs** that cancel out restore the line being typed. -/
theorem ups_downs_restore (host : Host) (hidle : s.Idle) (hlevel : s.Level 0)
    {ups downs : List EditKey} (hups : ∀ k ∈ ups, k.isUp = true)
    (hdowns : ∀ k ∈ downs, k.isDown = true) (hlength : ups.length = downs.length) :
    ((ups ++ downs).foldl (press host) s).lineBuffer = s.lineBuffer := by
  have hstart : s.Away s.lineBuffer 0 := ⟨hlevel, fun _ => rfl, fun h => (h rfl).elim⟩
  obtain ⟨hidle', hup⟩ := ups_away host hups hidle hstart
  rw [List.foldl_append]
  exact (downs_away host hdowns hidle' hup).line (by omega)

/-! ## Fresh lines -/

/-- Typing a text. -/
def typing (text : List { c : Char // isPrintable c = true }) : List EditKey :=
  text.map fun c => .char c.1 c.2

/-- What the start of a line promises. -/
structure FreshLine (host : Host) (s : Keyboard) : Prop where
  /-- The first Up recalls the most recent entry. -/
  recalls : ∀ k : EditKey, k.isUp = true → ∀ last, s.console.history.getLast? = some last →
    (s.press host k).lineBuffer = last
  /-- Whatever is typed comes back after as many Downs as Ups. -/
  restores : ∀ text ups downs, (∀ k ∈ ups, k.isUp = true) → (∀ k ∈ downs, k.isDown = true) →
    ups.length = downs.length →
    ((typing text ++ ups ++ downs).foldl (press host) s).lineBuffer = text.map Subtype.val
  /-- The line does not depend on the stash, the only trace of abandoned lines. -/
  forgets : ∀ keys : List EditKey, (∀ k ∈ keys, k.startsLine = false) → ∀ stash,
    (keys.foldl (press host) { s with historyStash := stash }).lineBuffer
      = (keys.foldl (press host) s).lineBuffer

theorem typing_eq (host : Host) (text : List { c : Char // isPrintable c = true }) :
    ∀ {s : Keyboard}, s.escState = .ground → ∃ shown, (typing text).foldl (press host) s
      = { s with lineBuffer := s.lineBuffer ++ text.map Subtype.val, shown := shown } := by
  induction text with
  | nil => exact fun {s} _ => ⟨s.shown, by simp [typing]⟩
  | cons c text ih =>
      intro s hground
      have hfirst := press_char host hground c.2
      have hground' : (s.press host (.char c.1 c.2)).escState = .ground := by
        rw [hfirst]
        exact hground
      obtain ⟨shown, hrest⟩ := ih hground'
      refine ⟨shown, ?_⟩
      rw [typing, List.map_cons, List.foldl_cons]
      refine hrest.trans ?_
      rw [hfirst]
      simp [emit]

/-- A key within the line keeps the console idle, and its history. -/
theorem press_inLine (host : Host) (hidle : s.Idle) {k : EditKey} (hk : k.startsLine = false) :
    (s.press host k).Idle ∧ (s.press host k).console = s.console := by
  cases k with
  | char c h =>
      rw [press_char host hidle.ground h]
      exact ⟨⟨hidle.busy, hidle.ground⟩, rfl⟩
  | backspace c h =>
      rw [press_backspace host hidle.ground h]
      split
      · exact ⟨⟨hidle.busy, hidle.ground⟩, rfl⟩
      · exact ⟨hidle, rfl⟩
  | up dialect h =>
      rw [press_up host hidle.ground h]
      exact ⟨hidle.historyStep (-1), (historyStep_frame s (-1)).1⟩
  | down dialect h =>
      rw [press_down host hidle.ground h]
      exact ⟨hidle.historyStep 1, (historyStep_frame s 1).1⟩
  | enter => cases hk
  | interrupt => cases hk

/-- The two differ in the stash at most, and not while it is in use. -/
inductive SameLine (s : Keyboard) : Keyboard → Prop
  | intro {stash : Line} : (s.historyIndex ≠ none → stash = s.historyStash) →
      SameLine s { s with historyStash := stash }

theorem SameLine.refl (s : Keyboard) : SameLine s s := .intro fun _ => rfl

theorem sameLine_historyStep (h : SameLine s s') (direction : Int) :
    SameLine (s.historyStep direction) (s'.historyStep direction) := by
  obtain @⟨stash, hused⟩ := h
  by_cases hnone : s.historyIndex = none
  · by_cases hempty : s.console.busy = true ∨ s.console.history = []
    · have hstay : s.historyStep direction = s := if_pos hempty
      have hstay' : ({ s with historyStash := stash } : Keyboard).historyStep direction
          = { s with historyStash := stash } := if_pos hempty
      rw [hstay, hstay']
      exact .intro hused
    by_cases hdown : 0 < direction
    · have hstay : s.historyStep direction = s := by
        unfold historyStep
        dsimp only
        rw [if_neg hempty, if_pos ⟨hnone, hdown⟩]
      have hstay' : ({ s with historyStash := stash } : Keyboard).historyStep direction
          = { s with historyStash := stash } := by
        unfold historyStep
        dsimp only
        rw [if_neg hempty, if_pos ⟨hnone, hdown⟩]
      rw [hstay, hstay']
      exact .intro hused
    · -- the stash is overwritten with the line
      have hsame : ({ s with historyStash := stash } : Keyboard).historyStep direction
          = s.historyStep direction := by
        have hmoves : ¬(s.historyIndex = none ∧ 0 < direction) := fun hstays => hdown hstays.2
        unfold historyStep
        simp only [if_neg hempty, if_neg hmoves, if_pos hnone]
      rw [hsame]
      exact .refl _
  · rw [hused hnone]
    exact .refl _

theorem sameLine_press (host : Host) (hidle : s.Idle) (h : SameLine s s') {k : EditKey}
    (hk : k.startsLine = false) : SameLine (s.press host k) (s'.press host k) := by
  have hground' : s'.escState = .ground := by
    obtain @⟨stash, -⟩ := h
    exact hidle.ground
  cases k with
  | char c hc =>
      rw [press_char host hidle.ground hc, press_char host hground' hc]
      obtain @⟨stash, hused⟩ := h
      exact .intro (s := { s with lineBuffer := s.lineBuffer ++ [c] }.emit [c]) hused
  | backspace c hc =>
      rw [press_backspace host hidle.ground hc, press_backspace host hground' hc]
      obtain @⟨stash, hused⟩ := h
      dsimp only
      split
      · exact .intro (s := { s with lineBuffer := s.lineBuffer.dropLast }.emit _) hused
      · exact .intro hused
  | up dialect hc =>
      rw [press_up host hidle.ground hc, press_up host hground' hc]
      exact sameLine_historyStep h (-1)
  | down dialect hc =>
      rw [press_down host hidle.ground hc, press_down host hground' hc]
      exact sameLine_historyStep h 1
  | enter => cases hk
  | interrupt => cases hk

theorem sameLine_keys (host : Host) : ∀ {keys : List EditKey} {s s' : Keyboard}, s.Idle →
    SameLine s s' → (∀ k ∈ keys, k.startsLine = false) →
    (keys.foldl (press host) s').lineBuffer = (keys.foldl (press host) s).lineBuffer
  | [], _, _, _, h, _ => by
      obtain @⟨stash, -⟩ := h
      rfl
  | k :: keys, s, s', hidle, h, hkeys => by
      have hk := hkeys k (List.mem_cons_self ..)
      rw [List.foldl_cons, List.foldl_cons]
      exact sameLine_keys host (press_inLine host hidle hk).1 (sameLine_press host hidle h hk)
        fun k hk => hkeys k (List.mem_cons_of_mem _ hk)

/-- With the cursor set, one Up and one Down overwrite whatever was typed. -/
theorem overwritten (host : Host) (hidle : s.Idle) {d : ℕ} (hlevel : s.Level d) (hd : d ≠ 0)
    (text : List { c : Char // isPrintable c = true }) :
    ((typing text ++ [EditKey.xtermUp] ++ [EditKey.xtermDown]).foldl (press host) s).lineBuffer
      = ((s.historyStep (-1)).historyStep 1).lineBuffer := by
  obtain ⟨shown, htyped⟩ := typing_eq host text hidle.ground
  have hline : ∀ s' : Keyboard, s'.console = s.console → s'.historyStash = s.historyStash →
      s'.Level d → ((s'.historyStep (-1)).historyStep 1).lineBuffer
        = if min (d + 1) s.console.history.length = 1 then s.historyStash
          else s.entry (min (d + 1) s.console.history.length - 1) := by
    intro s' hconsole hstash hlevel'
    have hle := hlevel'.le
    have hsome : s'.console.history ≠ [] := fun hempty => by
      rw [hempty, List.length_nil] at hle
      omega
    have hbusy : s'.console.busy = false := hconsole ▸ hidle.busy
    obtain ⟨hup, hmoved⟩ := level_up hbusy hlevel'
    have hsame := (historyStep_frame s' (-1)).1
    obtain ⟨-, -, hdown⟩ := level_down (hsame ▸ hbusy) hup
    have hpositive : min (d + 1) s.console.history.length ≠ 0 := by
      rw [← hconsole]
      omega
    rw [hdown, (hmoved hsome).2, if_neg hd, hstash, hconsole, if_neg hpositive]
    unfold entry
    rw [hsame, hconsole]
  have hpressed : ∀ s' : Keyboard, s'.Idle →
      [EditKey.xtermUp, .xtermDown].foldl (press host) s'
        = (s'.historyStep (-1)).historyStep 1 := by
    intro s' hidle'
    rw [List.foldl_cons, press_isUp host hidle' rfl, List.foldl_cons, List.foldl_nil,
      press_isDown host (hidle'.historyStep (-1)) rfl]
  have hidle' : ({ s with
      lineBuffer := s.lineBuffer ++ text.map Subtype.val
      shown := shown } : Keyboard).Idle := ⟨hidle.busy, hidle.ground⟩
  have hlevel' : ({ s with
      lineBuffer := s.lineBuffer ++ text.map Subtype.val
      shown := shown } : Keyboard).Level d := ⟨hlevel.le, hlevel.cursor⟩
  rw [List.append_assoc, List.foldl_append, htyped, List.singleton_append, hpressed _ hidle',
    hline s rfl rfl hlevel]
  exact hline _ rfl rfl hlevel'

/-- **A fresh line** keeps its promises if and only if the cursor is
`None`. -/
theorem fresh_line_iff (host : Host) (hidle : s.Idle) (hline : s.lineBuffer = [])
    (hcursor : ∀ i, s.historyIndex = some i → i < s.console.history.length) :
    FreshLine host s ↔ s.historyIndex = none := by
  constructor
  · intro hfresh
    by_contra hstale
    obtain ⟨d, hlevel⟩ := exists_level hcursor
    have hd : d ≠ 0 := fun hd => hstale ((level_zero_iff hlevel).mp hd)
    have hlost : ∀ text : List { c : Char // isPrintable c = true }, text.map Subtype.val
        = ((s.historyStep (-1)).historyStep 1).lineBuffer := by
      intro text
      rw [← overwritten host hidle hlevel hd text]
      exact (hfresh.restores text [.xtermUp] [.xtermDown] (by simp [EditKey.isUp, EditKey.xtermUp])
        (by simp [EditKey.isDown, EditKey.xtermDown]) rfl).symm
    have hsame := (hlost [⟨'x', rfl⟩]).trans (hlost [⟨'y', rfl⟩]).symm
    cases hsame
  · intro hnone
    have hlevel : s.Level 0 := ⟨Nat.zero_le _, by rw [hnone, if_pos rfl]⟩
    refine ⟨fun k hk last hlast => ?_, fun text ups downs hups hdowns hlength => ?_,
      fun keys hkeys stash => ?_⟩
    · have hsome : s.console.history ≠ [] := fun hempty => by simp [hempty] at hlast
      have hlength := List.length_pos_iff.mpr hsome
      have hone : min (0 + 1) s.console.history.length = 1 := by omega
      rw [press_isUp host hidle hk, ((level_up hidle.busy hlevel).2 hsome).1, hone, entry,
        List.getD_eq_getElem?_getD, ← List.getLast?_eq_getElem?, hlast]
      rfl
    · obtain ⟨shown, htyped⟩ := typing_eq host text hidle.ground
      have hidle' : ({ s with
          lineBuffer := s.lineBuffer ++ text.map Subtype.val
          shown := shown } : Keyboard).Idle := ⟨hidle.busy, hidle.ground⟩
      rw [List.append_assoc, List.foldl_append, htyped,
        ups_downs_restore host hidle' ⟨hlevel.le, hlevel.cursor⟩ hups hdowns hlength, hline]
      rfl
    · exact sameLine_keys host hidle (.intro fun hused => (hused hnone).elim) hkeys

/-! ## The history -/

/-- The cursor is `None` or an index, and the history has at most
`HISTORY_LIMIT` entries, no two neighbours the same. -/
structure Bounded (s : Keyboard) : Prop where
  cursor : ∀ i, s.historyIndex = some i → i < s.console.history.length
  limit : s.console.history.length ≤ 500
  distinct : s.console.history.IsChain (· ≠ ·)

theorem historyRecord_bounded {c : Console} (line : Line) (hlimit : c.history.length ≤ 500)
    (hdistinct : c.history.IsChain (· ≠ ·)) :
    (c.historyRecord line).history.length ≤ 500
      ∧ (c.historyRecord line).history.IsChain (· ≠ ·) := by
  unfold Console.historyRecord
  split
  · rename_i hnew
    have hchain : (c.history ++ [line]).IsChain (· ≠ ·) := by
      refine List.isChain_append.mpr ⟨hdistinct, .singleton line, fun x hx y hy => ?_⟩
      rintro rfl
      rw [List.head?_cons, Option.mem_some_iff] at hy
      exact hnew.2 (hy ▸ hx)
    dsimp only
    constructor
    · rw [List.length_drop]
      omega
    · exact hchain.drop _
  · exact ⟨hlimit, hdistinct⟩

theorem handle_history (host : Host) (c : Console) (line : Line) :
    (c.handle host line).history = (c.historyRecord (strip line)).history := by
  unfold Console.handle
  dsimp only
  split
  · rfl
  · rfl
  · rfl
  · obtain ⟨mode, hmode⟩ := Console.enterLinuxPty_eq host (c.historyRecord (strip line))
    rw [hmode]
  · rfl

/-- Nothing was typed while a command ran. -/
structure Quiet (c : Console) : Prop where
  stdin : c.stdinQueue = []
  leftovers : ∀ lines, c.worker = .resubmitting lines → lines = []

/-- The worker of a quiet session has no lines to record. -/
theorem quiet_worked {c c' : Console} (h : Quiet c) (hworked : Console.Worked host c c') :
    Quiet c' ∧ c'.history = c.history := by
  cases hworked with
  | dequeue => exact ⟨⟨h.stdin, nofun⟩, rfl⟩
  | setBusy => exact ⟨⟨h.stdin, nofun⟩, rfl⟩
  | @run command hworker =>
      obtain ⟨pythonLines, awaiting, alpine, worker, hrun, hpc⟩ := Console.runLine_eq host c command
      rw [hrun]
      refine ⟨⟨h.stdin, fun lines hlines => ?_⟩, rfl⟩
      rcases hpc with rfl | rfl | rfl <;> cases hlines
  | await => exact ⟨⟨h.stdin, nofun⟩, rfl⟩
  | clearBlock => exact ⟨⟨h.stdin, nofun⟩, rfl⟩
  | clearBusy => exact ⟨⟨h.stdin, nofun⟩, rfl⟩
  | startAlpine =>
      obtain ⟨mode, hmode⟩ := Console.enterLinuxPty_eq host
        { c with startAlpineAfterCommand := false, worker := .waiting }
      rw [hmode]
      exact ⟨⟨h.stdin, nofun⟩, rfl⟩
  | drain =>
      refine ⟨⟨rfl, fun lines hlines => ?_⟩, rfl⟩
      rw [← WorkerPc.resubmitting.inj hlines, h.stdin]
  | resubmit hworker => cases h.leftovers _ hworker
  | wait => exact ⟨⟨h.stdin, nofun⟩, rfl⟩

/-! ## One key -/

theorem level_cursor {d : ℕ} (h : s.Level d) :
    ∀ i, s.historyIndex = some i → i < s.console.history.length := by
  intro i hi
  have hle := h.le
  rw [h.cursor] at hi
  split at hi
  · cases hi
  · obtain rfl := Option.some.inj hi
    omega

/-- A key within the line moves the user as its depth says. -/
theorem level_press (host : Host) (hidle : s.Idle) {d : ℕ} (h : s.Level d) {k : EditKey}
    (hk : k.startsLine = false) :
    (s.press host k).Level (k.depth s.console.history.length d) := by
  cases k with
  | char c hc =>
      rw [press_char host hidle.ground hc]
      exact ⟨h.le, h.cursor⟩
  | backspace c hc =>
      rw [press_backspace host hidle.ground hc]
      split
      · exact ⟨h.le, h.cursor⟩
      · exact h
  | up dialect hc =>
      rw [press_up host hidle.ground hc]
      exact (level_up hidle.busy h).1
  | down dialect hc =>
      rw [press_down host hidle.ground hc]
      exact (level_down hidle.busy h).1
  | enter => cases hk
  | interrupt => cases hk

/-- What a key that ends the line leaves behind. -/
structure Started (s s' : Keyboard) : Prop where
  line : s'.lineBuffer = []
  ground : s'.escState = .ground
  busy : s'.console.busy = s.console.busy
  quiet : Quiet s.console → Quiet s'.console
  bounded : s.Bounded → s'.Bounded

theorem started_enter (host : Host) (hidle : s.Idle) {c : Char} (hc : c = '\r' ∨ c = '\n') :
    Started s (s.press host (.enter c hc))
    ∧ (s.press host (.enter c hc)).historyIndex
      = if strip s.lineBuffer = [] then s.historyIndex else none := by
  have hconsole : s.console.submitLine host s.lineBuffer = s.console.handle host s.lineBuffer :=
    if_neg (by simp [hidle.busy])
  have hcursor : (if s.console.busy = true ∨ strip s.lineBuffer = [] then s.historyIndex else none)
      = if strip s.lineBuffer = [] then s.historyIndex else none := by simp [hidle.busy]
  have hpress : s.press host (.enter c hc)
      = { s.emit "\r\n".toList with
          console := s.console.handle host s.lineBuffer
          historyIndex := if strip s.lineBuffer = [] then s.historyIndex else none
          lineBuffer := [] } := by
    rw [press_enter host hidle.ground hc, submitLine, ← hconsole, ← hcursor]
    rfl
  rw [hpress]
  obtain ⟨history, queued, mode, pythonLines, hhandle, -⟩ :=
    Console.handle_eq host s.console s.lineBuffer
  refine ⟨⟨rfl, hidle.ground, ?_, fun hquiet => ?_, fun hbounded => ?_⟩, rfl⟩
  · rw [hhandle]
  · rw [hhandle]
    exact ⟨hquiet.stdin, hquiet.leftovers⟩
  · obtain ⟨hlimit, hdistinct⟩ := historyRecord_bounded (strip s.lineBuffer) hbounded.limit
      hbounded.distinct
    rw [← handle_history host] at hlimit hdistinct
    refine ⟨fun i hi => ?_, hlimit, hdistinct⟩
    dsimp only at hi ⊢
    split at hi
    · rename_i hblank
      have hkept : s.console.historyRecord [] = s.console := if_neg (by simp)
      rw [handle_history, hblank, hkept]
      exact hbounded.cursor i hi
    · cases hi

theorem started_interrupt (host : Host) (hidle : s.Idle) :
    Started s (s.press host .interrupt)
    ∧ (s.press host .interrupt).historyIndex = s.historyIndex := by
  have hpress : s.press host .interrupt
      = ({ s with lineBuffer := [], console := { s.console with pythonLines := [] } }.emit
          "^C\r\n".toList).emitPrompt := by
    rw [press_interrupt host hidle.ground]
    exact if_neg (by simp [emit, hidle.busy])
  rw [hpress]
  exact ⟨⟨rfl, hidle.ground, rfl, fun h => ⟨h.stdin, h.leftovers⟩,
    fun h => ⟨h.cursor, h.limit, h.distinct⟩⟩, rfl⟩

/-! ## Runs -/

/-- A session whose keys are pressed while no command runs. `depth` and
`fresh` are ghosts: how far up the user has gone on this line, and whether
the last key started it. -/
structure Walk where
  keyboard : Keyboard
  depth : ℕ
  fresh : Bool

inductive WalkStep where
  | press (k : EditKey)
  | work

namespace Walk

def start (awaitingAlpine : Bool) : Walk := ⟨Keyboard.start awaitingAlpine, 0, true⟩

def step (host : Host) (s : Walk) : WalkStep → Option Walk
  | .press k =>
    if s.keyboard.console.busy then none
    else some
      { keyboard := s.keyboard.press host k
        depth := k.depth s.keyboard.console.history.length s.depth
        fresh := k.startsLine }
  | .work => (s.keyboard.console.work host).map fun console =>
      { s with keyboard := { s.keyboard with console := console } }

/-- Ctrl+C, and Enter on a blank line, find the cursor at `None`. -/
def Careful (s : Walk) : WalkStep → Prop
  | .press (.enter _ _) => strip s.keyboard.lineBuffer = [] → s.keyboard.historyIndex = none
  | .press .interrupt => s.keyboard.historyIndex = none
  | _ => True

/-- What every key keeps. -/
structure Tidy (s : Walk) : Prop where
  ground : s.keyboard.escState = .ground
  quiet : Quiet s.keyboard.console
  bounded : s.keyboard.Bounded
  line : s.fresh = true → s.keyboard.lineBuffer = []
  depth : s.fresh = true → s.depth = 0

variable {w w' : Walk}

theorem tidy_start (awaitingAlpine : Bool) : (start awaitingAlpine).Tidy where
  ground := rfl
  quiet := ⟨rfl, nofun⟩
  bounded := ⟨nofun, Nat.zero_le _, .nil⟩
  line _ := rfl
  depth _ := rfl

theorem step_cases {a : WalkStep} (h : w.step host a = some w') :
    (∃ k, a = .press k ∧ w.keyboard.console.busy = false
      ∧ w' = ⟨w.keyboard.press host k,
          k.depth w.keyboard.console.history.length w.depth, k.startsLine⟩)
    ∨ ∃ console, a = .work ∧ Console.Worked host w.keyboard.console console
      ∧ w' = { w with keyboard := { w.keyboard with console := console } } := by
  cases a with
  | press k =>
      rw [step] at h
      split at h
      · cases h
      · exact Or.inl ⟨k, rfl, eq_false_of_ne_true ‹_›, (Option.some.inj h).symm⟩
  | work =>
      obtain ⟨console, hwork, rfl⟩ := Option.map_eq_some_iff.mp h
      exact Or.inr ⟨console, rfl, Console.worked_of_work hwork, rfl⟩

/-- Enter and Ctrl+C start a line at cursor `None` just when they are
careful. -/
theorem started_press (host : Host) (hidle : w.keyboard.Idle) {k : EditKey}
    (hk : k.startsLine = true) :
    Started w.keyboard (w.keyboard.press host k)
    ∧ ((w.keyboard.press host k).historyIndex = none ↔ w.Careful (.press k)) := by
  cases k with
  | enter c hc =>
      obtain ⟨hstarted, hcursor⟩ := started_enter host hidle hc
      refine ⟨hstarted, ?_⟩
      rw [hcursor, Careful]
      by_cases hblank : strip w.keyboard.lineBuffer = [] <;> simp [hblank]
  | interrupt =>
      obtain ⟨hstarted, hcursor⟩ := started_interrupt host hidle
      exact ⟨hstarted, by rw [hcursor, Careful]⟩
  | _ => cases hk

theorem tidy_step {a : WalkStep} (h : w.Tidy) (hstep : w.step host a = some w') : w'.Tidy := by
  rcases step_cases hstep with ⟨k, rfl, hbusy, rfl⟩ | ⟨console, rfl, hworked, rfl⟩
  · have hidle : w.keyboard.Idle := ⟨hbusy, h.ground⟩
    cases hk : k.startsLine with
    | true =>
        have hstarted := (started_press host hidle hk).1
        exact ⟨hstarted.ground, hstarted.quiet h.quiet, hstarted.bounded h.bounded,
          fun _ => hstarted.line, fun _ => EditKey.depth_startsLine hk⟩
    | false =>
        obtain ⟨hidle', hconsole⟩ := press_inLine host hidle hk
        obtain ⟨d, hlevel⟩ := exists_level h.bounded.cursor
        refine ⟨hidle'.ground, hconsole ▸ h.quiet, ?_, nofun, nofun⟩
        exact ⟨level_cursor (level_press host hidle hlevel hk), hconsole ▸ h.bounded.limit,
          hconsole ▸ h.bounded.distinct⟩
  · obtain ⟨hquiet, hhistory⟩ := quiet_worked h.quiet hworked
    refine ⟨h.ground, hquiet, ⟨?_, ?_, ?_⟩, h.line, h.depth⟩
    · exact fun i hi => hhistory ▸ h.bounded.cursor i hi
    · exact hhistory ▸ h.bounded.limit
    · exact hhistory ▸ h.bounded.distinct

/-- In a careful run the ghost depth is where the cursor is. -/
theorem level_step {a : WalkStep} (h : w.Tidy) (hlevel : w.keyboard.Level w.depth)
    (hcareful : w.Careful a) (hstep : w.step host a = some w') :
    w'.keyboard.Level w'.depth := by
  rcases step_cases hstep with ⟨k, rfl, hbusy, rfl⟩ | ⟨console, rfl, hworked, rfl⟩
  · have hidle : w.keyboard.Idle := ⟨hbusy, h.ground⟩
    cases hk : k.startsLine with
    | true =>
        have hnone := (started_press host hidle hk).2.mpr hcareful
        dsimp only
        rw [EditKey.depth_startsLine hk]
        exact ⟨Nat.zero_le _, by rw [hnone, if_pos rfl]⟩
    | false => exact level_press host hidle hlevel hk
  · have hhistory := (quiet_worked h.quiet hworked).2
    exact ⟨hhistory ▸ hlevel.le, hhistory ▸ hlevel.cursor⟩

/-- **Navigation of the history.** In every run the cursor and the history
are within their bounds, and a key that ends a line starts one that keeps
its promises just when the key is careful. In a careful run every fresh
line keeps them, and Ups and Downs that cancel out restore the line being
typed wherever it is. -/
theorem history_navigation (host : Host) (awaitingAlpine : Bool) :
    (∀ w, Reach (step host) Free (start awaitingAlpine) w → w.keyboard.Bounded
      ∧ ∀ k w', k.startsLine = true → w.step host (.press k) = some w' →
          (FreshLine host w'.keyboard ↔ w.Careful (.press k)))
    ∧ ∀ w, Reach (step host) Careful (start awaitingAlpine) w →
        w.keyboard.console.busy = false →
        (w.fresh = true → FreshLine host w.keyboard)
        ∧ (w.depth = 0 → ∀ ups downs : List EditKey, (∀ k ∈ ups, k.isUp = true) →
            (∀ k ∈ downs, k.isDown = true) → ups.length = downs.length →
            ((ups ++ downs).foldl (press host) w.keyboard).lineBuffer
              = w.keyboard.lineBuffer) := by
  have htidy : ∀ w, Reach (step host) Free (start awaitingAlpine) w → w.Tidy := fun w hrun =>
    hrun.invariant Tidy (tidy_start awaitingAlpine) fun _ _ _ h _ hstep => tidy_step h hstep
  constructor
  · intro w hrun
    refine ⟨(htidy w hrun).bounded, fun k w' hk hstep => ?_⟩
    have htidy' := tidy_step (htidy w hrun) hstep
    rcases step_cases hstep with ⟨k', heq, hbusy, rfl⟩ | ⟨_, heq, _⟩
    · obtain rfl := WalkStep.press.inj heq
      obtain ⟨hstarted, hcareful⟩ := started_press host ⟨hbusy, (htidy w hrun).ground⟩ hk
      rw [← hcareful]
      exact fresh_line_iff host ⟨hstarted.busy.trans hbusy, hstarted.ground⟩ hstarted.line
        htidy'.bounded.cursor
    · cases heq
  · intro w hrun hbusy
    have hlevel : w.keyboard.Level w.depth := by
      have hboth : w.Tidy ∧ w.keyboard.Level w.depth := by
        refine hrun.invariant (fun w => w.Tidy ∧ w.keyboard.Level w.depth)
          ⟨tidy_start awaitingAlpine, Nat.zero_le _, rfl⟩ fun w a w' h hcareful hstep => ?_
        exact ⟨tidy_step h.1 hstep, level_step h.1 h.2 hcareful hstep⟩
      exact hboth.2
    have htidy := htidy w (hrun.imp fun _ _ _ => trivial)
    have hidle : w.keyboard.Idle := ⟨hbusy, htidy.ground⟩
    refine ⟨fun hfresh => ?_, fun hzero ups downs hups hdowns hlength => ?_⟩
    · rw [htidy.depth hfresh] at hlevel
      exact (fresh_line_iff host hidle (htidy.line hfresh) htidy.bounded.cursor).mpr
        ((level_zero_iff hlevel).mp rfl)
    · rw [hzero] at hlevel
      exact ups_downs_restore host hidle hlevel hups hdowns hlength

/-! ## A line that comes back

`a` is submitted, `b` is typed, and Up replaces it by `a`. -/

open Traced (plainHost)

def walked (keys : List EditKey) : Option Walk :=
  replay (step plainHost) Free (start false) (keys.map .press)

def recalled : List EditKey := [.char 'a' rfl, .enter '\r' (Or.inl rfl), .char 'b' rfl, .xtermUp]

def blankEnter : List EditKey := [.backspace '\x7f' (Or.inl rfl), .enter '\r' (Or.inl rfl)]

/-- Down restores `b`, and would not if the stash were empty. -/
def restoresAbandoned (w : Walk) : Bool :=
  w.fresh && (w.keyboard.press plainHost .xtermDown).lineBuffer = ['b']
    && (({ w.keyboard with historyStash := [] } : Keyboard).press plainHost .xtermDown).lineBuffer
      = []

theorem not_fresh_of_restores (h : restoresAbandoned w = true) :
    ¬FreshLine plainHost w.keyboard := by
  intro hfresh
  simp only [restoresAbandoned, Bool.and_eq_true, decide_eq_true_eq] at h
  have hsame := hfresh.forgets [.xtermDown] (by simp [EditKey.xtermDown, EditKey.startsLine]) []
  rw [List.foldl_cons, List.foldl_nil, List.foldl_cons, List.foldl_nil, h.2, h.1.2] at hsame
  cases hsame

/-- The line is abandoned with Ctrl+C, or emptied and submitted: Down
brings `b` back. -/
theorem abandoned_line_restored :
    (∃ w, walked (recalled ++ [.interrupt]) = some w ∧ restoresAbandoned w = true
      ∧ ¬FreshLine plainHost w.keyboard)
    ∧ ∃ w, walked (recalled ++ blankEnter) = some w ∧ restoresAbandoned w = true
      ∧ ¬FreshLine plainHost w.keyboard := by
  constructor
  · obtain ⟨w, hw, hrestores⟩ := Option.map_eq_some_iff.mp
      (show (walked (recalled ++ [.interrupt])).map restoresAbandoned = some true by
        rfl)
    exact ⟨w, hw, hrestores, not_fresh_of_restores hrestores⟩
  · obtain ⟨w, hw, hrestores⟩ := Option.map_eq_some_iff.mp
      (show (walked (recalled ++ blankEnter)).map restoresAbandoned = some true by
        decide)
    exact ⟨w, hw, hrestores, not_fresh_of_restores hrestores⟩

/-- After `a` and Enter the line is fresh. -/
theorem fresh_after_submit : ∃ w, Reach (step plainHost) Careful (start false) w
    ∧ w.keyboard.console.history = [['a']] ∧ FreshLine plainHost w.keyboard := by
  have hrun : Reach (step plainHost) Careful (start false)
      { keyboard := ((Keyboard.start false).press plainHost (.char 'a' rfl)).press plainHost
          (.enter '\r' (Or.inl rfl))
        depth := 0
        fresh := true } :=
    .next (a := .press (.enter '\r' (Or.inl rfl)))
      (.next (a := .press (.char 'a' rfl)) .start trivial rfl)
      (fun hblank => absurd hblank (by decide)) rfl
  exact ⟨_, hrun, by decide,
    ((history_navigation plainHost false).2 _ hrun rfl).1 rfl⟩

end Walk

end Keyboard

end Zmux
