import Mathlib.Data.Int.Order.Basic
import Mathlib.Logic.Function.Basic
import Mathlib.Tactic.SplitIfs
import Zmux.TabManager

/-!
# The geometry of the terminals

The window size goes through three levels: the manager remembers it for
all tabs, a session remembers it for its PTY, and `set_winsize` packs it
for the kernel as unsigned 16-bit numbers. Only the last level has a
bound. `struct.pack` raises `struct.error` above it, which no caller
catches: `RealPtyProcess.resize` and the constructor expect an `OSError`.

The manager's operations come one at a time, between events of the
sessions: a shell is entered, exits or is left. As long as every resize
that the manager takes fits in 16 bits (`SixteenBit`), nothing raises, and
all levels agree (`geometry_agrees`).
-/

namespace Zmux

namespace Geometry

/-! ## The three levels -/

/-- `session.pty`: none, a PTY, or one with `_exited` set. -/
inductive Pty where
  | none
  | live
  | exited
deriving DecidableEq

/-- What a session knows of its size. -/
structure Terminal where
  cols : ℤ
  rows : ℤ
  /-- `shell.width`. -/
  width : ℤ
  pty : Pty
deriving DecidableEq

def Terminal.new : Terminal where
  cols := 80
  rows := 24
  width := 80
  pty := .none

/-- A format `H` of `struct.pack`. -/
def packs (n : ℤ) : Bool := 0 ≤ n && n ≤ 65535

/-- `handed`, `raised` and `accepted` are ghosts: the rows and columns that
`set_winsize` packed or failed to pack, whether `struct.error` was raised,
and the last geometry that can be applied among those asked for. -/
structure Tabs where
  manager : Manager
  cols : ℤ
  rows : ℤ
  terminal : SessionId → Terminal
  handed : List (ℤ × ℤ)
  raised : Bool
  accepted : ℤ × ℤ

namespace Tabs

def start : Tabs where
  manager := ⟨[], none, 0⟩
  cols := 80
  rows := 24
  terminal _ := .new
  handed := []
  raised := false
  accepted := (80, 24)

def set (s : Tabs) (sessionId : SessionId) (t : Terminal) : Tabs :=
  { s with terminal := Function.update s.terminal sessionId t }

/-- `set_winsize`; an `OSError` of the `ioctl` is caught by both callers. -/
def setWinsize (rows cols : ℤ) (s : Tabs) : Tabs :=
  let rows := max 1 rows
  let cols := max 1 cols
  { s with
    handed := s.handed ++ [(rows, cols)]
    raised := s.raised || !(packs rows && packs cols) }

/-- `PTYTerminalSession.resize`, with `RealPtyProcess.resize`. -/
def resizeSession (sessionId : SessionId) (cols rows : ℤ) (s : Tabs) : Tabs :=
  let t := s.terminal sessionId
  let t := { t with cols := if 0 < cols then cols else t.cols }
  let t := { t with rows := if 0 < rows then rows else t.rows }
  match t.pty with
  | .live => (s.set sessionId t).setWinsize t.rows t.cols
  | .exited => s.set sessionId t
  | .none => s.set sessionId { t with width := if 0 < cols then max 20 cols else t.width }

/-- How far `_enter_linux_pty` comes. -/
inductive Spawn where
  /-- Not to `set_winsize`. -/
  | unreached
  /-- The fork fails. -/
  | failed
  | alive

/-- `_enter_linux_pty`. -/
def enter (sessionId : SessionId) (spawn : Spawn) (s : Tabs) : Tabs :=
  let t := s.terminal sessionId
  match spawn with
  | .unreached => s
  | .failed => s.setWinsize t.rows t.cols
  | .alive =>
    if packs (max 1 t.rows) && packs (max 1 t.cols) then
      (s.setWinsize t.rows t.cols).set sessionId { t with pty := .live }
    else s.setWinsize t.rows t.cols

/-! ## The manager's operations -/

/-- `resize`. -/
def resize (cols rows : ℤ) (s : Tabs) : Tabs :=
  if cols ≤ 0 ∨ rows ≤ 0 then s
  else
    let s := { s with
      cols := cols
      rows := rows
      accepted := if packs cols && packs rows then (cols, rows) else s.accepted }
    match s.manager.active with
    | none => s
    | some sessionId => s.resizeSession sessionId cols rows

/-- `create`; a `ValueError` changes nothing. -/
def create (activate : Bool) (spawn : Spawn) (s : Tabs) : Tabs :=
  match s.manager.create activate with
  | none => s
  | some (sessionId, m) =>
    let s := ({ s with manager := m }).set sessionId .new
    (s.resizeSession sessionId s.cols s.rows).enter sessionId spawn

/-- `switch`. -/
def switch (target : Option SessionId) (s : Tabs) : Tabs :=
  match s.manager.switch target with
  | (none, _) => s
  | (some sessionId, m) => ({ s with manager := m }).resizeSession sessionId s.cols s.rows

/-- `session.pty` is set to `None`. -/
def leave (sessionId : SessionId) (s : Tabs) : Tabs :=
  s.set sessionId { s.terminal sessionId with pty := .none }

/-- `close`. -/
def close (sessionId : SessionId) (spawn : Spawn) (s : Tabs) : Tabs :=
  match s.manager.close sessionId with
  | none => s
  | some (wasActive, m) =>
    let s := ({ s with manager := m }).leave sessionId
    match m.active with
    | none => s.create true spawn
    | some active =>
      if wasActive then
        switch (some active) { s with manager := { m with active := none } }
      else s

inductive Op where
  | resize (cols rows : ℤ)
  | create (activate : Bool) (spawn : Spawn)
  | switch (sessionId : SessionId)
  | close (sessionId : SessionId) (spawn : Spawn)
  /-- A shell is entered, by a command, a toggle or after an exit. -/
  | enter (sessionId : SessionId) (spawn : Spawn)
  /-- A child exits, and its reader sets `_exited`. -/
  | exit (sessionId : SessionId)
  /-- A PTY is detached, or dropped after its exit. -/
  | leave (sessionId : SessionId)

def step (s : Tabs) : Op → Option Tabs
  | .resize cols rows => some (s.resize cols rows)
  | .create activate spawn => some (s.create activate spawn)
  | .switch sessionId => some (s.switch (some sessionId))
  | .close sessionId spawn => some (s.close sessionId spawn)
  | .enter sessionId spawn =>
    if sessionId ∈ s.manager.order ∧ (s.terminal sessionId).pty = .none then
      some (s.enter sessionId spawn)
    else none
  | .exit sessionId =>
    if (s.terminal sessionId).pty = .live then
      some (s.set sessionId { s.terminal sessionId with pty := .exited })
    else none
  | .leave sessionId => some (s.leave sessionId)

/-- What the manager takes fits in 16 bits. -/
def SixteenBit (_ : Tabs) : Op → Prop
  | .resize cols rows => 0 < cols → 0 < rows → cols ≤ 65535 ∧ rows ≤ 65535
  | _ => True

instance (s : Tabs) (op : Op) : Decidable (SixteenBit s op) :=
  match op with
  | .resize cols rows => inferInstanceAs
      (Decidable (0 < cols → 0 < rows → cols ≤ 65535 ∧ rows ≤ 65535))
  | .create .. | .switch _ | .close .. | .enter .. | .exit _ | .leave _ => instDecidableTrue

/-- No operation raised, what was handed to `set_winsize` packs, and the
manager and the active session have the last geometry that can be
applied. -/
structure Agrees (s : Tabs) : Prop where
  raised : s.raised = false
  handed : ∀ g ∈ s.handed, packs g.1 = true ∧ packs g.2 = true
  stored : (s.cols, s.rows) = s.accepted
  recorded : ∀ i, s.manager.active = some i →
    ((s.terminal i).cols, (s.terminal i).rows) = s.accepted

/-! ## The invariant -/

theorem set_terminal_self (s : Tabs) (i : SessionId) (t : Terminal) :
    (s.set i t).terminal i = t :=
  Function.update_self ..

theorem set_terminal_ne {s : Tabs} {i j : SessionId} (t : Terminal) (h : j ≠ i) :
    (s.set i t).terminal j = s.terminal j :=
  Function.update_of_ne h ..

/-- A geometry that can be applied. -/
structure Fits (cols rows : ℤ) : Prop where
  cols_pos : 0 < cols
  rows_pos : 0 < rows
  cols_le : cols ≤ 65535
  rows_le : rows ≤ 65535

/-- Both levels above the kernel only have what can be applied. The
session `stale` may not have been resized since it became active. -/
structure Applied (s : Tabs) (stale : Option SessionId) : Prop where
  bounded : s.manager.Bounded
  fits : Fits s.cols s.rows
  terminals : ∀ i, Fits (s.terminal i).cols (s.terminal i).rows
  raised : s.raised = false
  handed : ∀ g ∈ s.handed, packs g.1 = true ∧ packs g.2 = true
  stored : (s.cols, s.rows) = s.accepted
  recorded : ∀ i, s.manager.active = some i → stale ≠ some i →
    ((s.terminal i).cols, (s.terminal i).rows) = s.accepted

variable {s : Tabs} {stale : Option SessionId}

theorem fits_new : Fits 80 24 := ⟨by decide, by decide, by decide, by decide⟩

theorem applied_start : Applied start none where
  bounded := ⟨nofun, nofun⟩
  fits := fits_new
  terminals _ := fits_new
  raised := rfl
  handed := nofun
  stored := rfl
  recorded := nofun

theorem packs_max {n : ℤ} (hpos : 0 < n) (hle : n ≤ 65535) : packs (max 1 n) = true := by
  rw [packs, max_eq_right (by omega : (1 : ℤ) ≤ n), Bool.and_eq_true, decide_eq_true_eq,
    decide_eq_true_eq]
  omega

/-- What fits is packed. -/
theorem Fits.packs {cols rows : ℤ} (h : Fits cols rows) :
    packs (max 1 rows) = true ∧ packs (max 1 cols) = true :=
  ⟨packs_max h.rows_pos h.rows_le, packs_max h.cols_pos h.cols_le⟩

theorem Applied.setWinsize (h : Applied s stale) {cols rows : ℤ} (hfits : Fits cols rows) :
    Applied (s.setWinsize rows cols) stale := by
  obtain ⟨hrows, hcols⟩ := hfits.packs
  refine ⟨h.bounded, h.fits, h.terminals, ?_, fun g hg => ?_, h.stored, h.recorded⟩
  · change (s.raised || !(Geometry.packs (max 1 rows) && Geometry.packs (max 1 cols))) = false
    rw [h.raised, hrows, hcols]
    rfl
  · rcases List.mem_append.mp hg with hg | hg
    · exact h.handed g hg
    · rw [List.mem_singleton.mp hg]
      exact ⟨hrows, hcols⟩

/-- A session may take any size that fits, if it is not the active one or
stays stale. -/
theorem Applied.set (h : Applied s stale) {stale' : Option SessionId} {sessionId : SessionId}
    {t : Terminal} (hfits : Fits t.cols t.rows)
    (hthis : s.manager.active = some sessionId → stale' ≠ some sessionId →
      (t.cols, t.rows) = s.accepted)
    (hothers : ∀ i, i ≠ sessionId → stale = some i → stale' = some i) :
    Applied (s.set sessionId t) stale' := by
  refine ⟨h.bounded, h.fits, fun i => ?_, h.raised, h.handed, h.stored, fun i hi hstale => ?_⟩
  · by_cases hself : i = sessionId
    · subst hself
      rw [set_terminal_self]
      exact hfits
    · rw [set_terminal_ne t hself]
      exact h.terminals i
  · by_cases hself : i = sessionId
    · subst hself
      rw [set_terminal_self]
      exact hthis hi hstale
    · rw [set_terminal_ne t hself]
      exact h.recorded i hi fun hold => hstale (hothers i hself hold)

/-- A session may change all but its size. -/
theorem Applied.setSame (h : Applied s stale) {sessionId : SessionId} {t : Terminal}
    (hcols : t.cols = (s.terminal sessionId).cols) (hrows : t.rows = (s.terminal sessionId).rows) :
    Applied (s.set sessionId t) stale := by
  refine h.set ?_ (fun hi hstale => ?_) fun _ _ hold => hold
  · rw [hcols, hrows]
    exact h.terminals sessionId
  · rw [hcols, hrows]
    exact h.recorded sessionId hi hstale

/-- A session that is resized is not stale any more. -/
theorem Applied.resizeSession {sessionId : SessionId} (h : Applied s (some sessionId)) :
    Applied (s.resizeSession sessionId s.cols s.rows) none := by
  have hset : ∀ t : Terminal, t.cols = s.cols → t.rows = s.rows →
      Applied (s.set sessionId t) none := by
    intro t hcols hrows
    refine h.set ?_ (fun _ _ => ?_) fun i hne hold => absurd (Option.some.inj hold).symm hne
    · rw [hcols, hrows]
      exact h.fits
    · rw [hcols, hrows]
      exact h.stored
  unfold Tabs.resizeSession
  dsimp only
  rw [if_pos h.fits.cols_pos, if_pos h.fits.rows_pos, if_pos h.fits.cols_pos]
  cases (s.terminal sessionId).pty with
  | live => exact (hset _ rfl rfl).setWinsize h.fits
  | exited => exact hset _ rfl rfl
  | none => exact hset _ rfl rfl

theorem Applied.enter (h : Applied s stale) (sessionId : SessionId) (spawn : Spawn) :
    Applied (s.enter sessionId spawn) stale := by
  have hwinsize := h.setWinsize (h.terminals sessionId)
  unfold Tabs.enter
  cases spawn with
  | unreached => exact h
  | failed => exact hwinsize
  | alive =>
      dsimp only
      split
      · exact hwinsize.setSame rfl rfl
      · exact hwinsize

/-! ## The operations keep it -/

theorem Applied.resize (h : Applied s none) (cols rows : ℤ)
    (hok : 0 < cols → 0 < rows → cols ≤ 65535 ∧ rows ≤ 65535) :
    Applied (s.resize cols rows) none := by
  unfold Tabs.resize
  split
  · exact h
  · rename_i hpos
    obtain ⟨hcols, hrows⟩ : 0 < cols ∧ 0 < rows := by omega
    obtain ⟨hcols', hrows'⟩ := hok hcols hrows
    have hpacks : (packs cols && packs rows) = true := by
      simp only [packs, Bool.and_eq_true, decide_eq_true_eq]
      omega
    have hstored (stale : Option SessionId) (hactive : s.manager.active = stale) :
        Applied { s with
          cols := cols
          rows := rows
          accepted := (cols, rows) } stale :=
      ⟨h.bounded, ⟨hcols, hrows, hcols', hrows'⟩, h.terminals, h.raised, h.handed, rfl,
        fun i hi hne => absurd (hactive.symm.trans hi) hne⟩
    dsimp only
    rw [if_pos hpacks]
    cases hactive : s.manager.active with
    | none => exact hstored none hactive
    | some sessionId => exact (hstored (some sessionId) hactive).resizeSession

theorem Applied.create (h : Applied s none) (activate : Bool) (spawn : Spawn) :
    Applied (s.create activate spawn) none := by
  unfold Tabs.create
  cases hcreate : s.manager.create activate with
  | none => exact h
  | some created =>
      obtain ⟨sessionId, m⟩ := created
      obtain ⟨hid, -, -, hactive⟩ := Manager.create_eq hcreate
      dsimp only
      refine Applied.enter (Applied.resizeSession ?_) sessionId spawn
      refine ⟨h.bounded.create hcreate, h.fits, fun i => ?_, h.raised, h.handed, h.stored,
        fun i hi hne => ?_⟩
      · by_cases hself : i = sessionId
        · subst hself
          rw [set_terminal_self]
          exact fits_new
        · rw [set_terminal_ne _ hself]
          exact h.terminals i
      · have hself : i ≠ sessionId := fun hself => hne (congrArg some hself.symm)
        rw [set_terminal_ne _ hself]
        refine h.recorded i ?_ nofun
        -- an active session other than the new one was active before
        change m.active = some i at hi
        rw [hactive] at hi
        split at hi
        · exact absurd (Option.some.inj hi).symm hself
        · exact hi

/-- A change of the manager that activates no other session. -/
theorem Applied.manage (h : Applied s none) {m : Manager} (hbounded : m.Bounded)
    (hactive : m.active = none ∨ m.active = s.manager.active) :
    Applied { s with manager := m } none := by
  refine ⟨hbounded, h.fits, h.terminals, h.raised, h.handed, h.stored, fun i hi _ => ?_⟩
  rcases hactive with hnone | hsame
  · exact absurd (hnone.symm.trans hi) nofun
  · exact h.recorded i (hsame.symm.trans hi) nofun

theorem Applied.switch (h : Applied s none) (target : Option SessionId) :
    Applied (s.switch target) none := by
  unfold Tabs.switch
  rcases Manager.switch_cases target s.manager with ⟨hsame, -⟩ | ⟨i, rfl, hi, -, hswitch⟩
  · rw [hsame]
    exact h
  · rw [hswitch]
    have hstale : Applied { s with manager := { s.manager with active := some i } } (some i) :=
      ⟨h.bounded.activate hi, h.fits, h.terminals, h.raised, h.handed, h.stored,
        fun _ hj hne => absurd hj hne⟩
    exact hstale.resizeSession

theorem Applied.leave (h : Applied s stale) (sessionId : SessionId) :
    Applied (s.leave sessionId) stale :=
  h.setSame rfl rfl

theorem Applied.close (h : Applied s none) (sessionId : SessionId) (spawn : Spawn) :
    Applied (s.close sessionId spawn) none := by
  unfold Tabs.close
  cases hclose : s.manager.close sessionId with
  | none => exact h
  | some closed =>
      obtain ⟨wasActive, m⟩ := closed
      obtain ⟨-, hwas, -, -, hactive⟩ := Manager.close_eq hclose
      have hbounded := h.bounded.close hclose
      dsimp only
      cases hnext : m.active with
      | none => exact Applied.create ((h.manage hbounded (Or.inl hnext)).leave sessionId) true spawn
      | some next =>
          dsimp only
          split
          · -- `switch` starts with no active session
            have hnone : Applied { s with manager := { m with active := none } } none :=
              h.manage ⟨hbounded.order, nofun⟩ (Or.inl rfl)
            exact (hnone.leave sessionId).switch (some next)
          · rename_i hother
            rw [hwas, decide_eq_true_eq] at hother
            rw [if_neg hother] at hactive
            exact (h.manage hbounded (Or.inr hactive)).leave sessionId

theorem Applied.step {s' : Tabs} {op : Op} (h : Applied s none) (hok : SixteenBit s op)
    (hs : step s op = some s') : Applied s' none := by
  cases op with
  | resize cols rows =>
      obtain rfl := Option.some.inj hs
      exact h.resize cols rows hok
  | create activate spawn =>
      obtain rfl := Option.some.inj hs
      exact h.create activate spawn
  | switch sessionId =>
      obtain rfl := Option.some.inj hs
      exact h.switch (some sessionId)
  | close sessionId spawn =>
      obtain rfl := Option.some.inj hs
      exact h.close sessionId spawn
  | enter sessionId spawn =>
      rw [Tabs.step] at hs
      split at hs
      · obtain rfl := Option.some.inj hs
        exact h.enter sessionId spawn
      · cases hs
  | exit sessionId =>
      rw [Tabs.step] at hs
      split at hs
      · obtain rfl := Option.some.inj hs
        exact h.setSame rfl rfl
      · cases hs
  | leave sessionId =>
      obtain rfl := Option.some.inj hs
      exact h.leave sessionId

theorem applied_of_reach (h : Reach step SixteenBit start s) : Applied s none :=
  h.invariant (fun s => Applied s none) applied_start fun _ _ _ hs hok hstep => hs.step hok hstep

/-- **All levels agree** in every run in which the resizes that the manager
takes fit in 16 bits. -/
theorem geometry_agrees (h : Reach step SixteenBit start s) : Agrees s := by
  have happlied := applied_of_reach h
  exact ⟨happlied.raised, happlied.handed, happlied.stored,
    fun i hi => happlied.recorded i hi nofun⟩

/-- A tab with a shell, a second one without, two resizes, and back. -/
theorem two_tabs_agree : ∃ s, Agrees s ∧ s.manager.active = some 1 ∧
    s.handed = [(24, 80), (30, 100), (40, 65535)] := by
  obtain ⟨s, hs, hend⟩ := reach_of_replay
    (p := fun s : Tabs => decide (s.manager.active = some 1 ∧
      s.handed = [(24, 80), (30, 100), (40, 65535)]))
    (show (replay step SixteenBit start
      [.create true .alive, .resize 100 30, .create true .unreached, .resize 65535 40,
        .resize 70000 0, .switch 1]).map _ = some true by decide)
  obtain ⟨hactive, hhanded⟩ := of_decide_eq_true hend
  exact ⟨s, geometry_agrees hs, hactive, hhanded⟩

/-- After a resize to 70000 columns no shell can be opened: the next
`create` raises, with its session already active. -/
theorem wide_resize_breaks_create : ∃ s, Reach step Free start s ∧ ¬ Agrees s ∧
    s.manager.active = some 2 ∧ (s.terminal 2).pty = .none := by
  obtain ⟨s, hs, hend⟩ := reach_of_replay
    (p := fun s : Tabs => decide (s.raised = true ∧ s.manager.active = some 2 ∧
      (s.terminal 2).pty = .none))
    (show (replay step Free start
      [.create true .unreached, .resize 70000 24, .create true .alive]).map _ = some true by decide)
  obtain ⟨hraised, hactive, hpty⟩ := of_decide_eq_true hend
  exact ⟨s, hs, fun h => absurd (hraised.symm.trans h.raised) (by decide), hactive, hpty⟩

end Tabs

end Geometry

end Zmux
