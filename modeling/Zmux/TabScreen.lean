import Mathlib.Logic.Function.Basic
import Zmux.PtyEmit
import Zmux.Screen
import Zmux.TabManager

/-!
# What is on the screen

The manager's operations one at a time: `create`, `switch`, `close`, and
the emits of the sessions, with what they broadcast. The screen is what
was broadcast since the last `RESET_TERMINAL_SCREEN`. What a session
prints when it starts, and what a closed session still prints, are emits
of that session.

`base` and `since` say what should be on the screen: the scrollback the
active session had when it was activated, and what it has emitted since.
They agree with the screen as long as `close` does not close the last tab
with something on the screen: the tab that replaces it is created with no
active session before it, and `create` then leaves out the reset.
-/

namespace Zmux

/-! ## The operations -/

structure Session where
  tail : List UInt8
  scrollback : List UInt8

/-- `base` and `since` are ghosts. -/
structure Tabs where
  manager : Manager
  session : SessionId → Session
  log : List (Event UInt8)
  base : List UInt8
  since : List UInt8

inductive TabOp where
  | create (activate : Bool)
  | switch (sessionId : SessionId)
  | close (sessionId : SessionId)
  | emit (sessionId : SessionId) (data : List UInt8)

namespace Tabs

def start : Tabs where
  manager := ⟨[], none, 0⟩
  session _ := ⟨[], []⟩
  log := []
  base := []
  since := []

def broadcast (s : Tabs) (e : Event UInt8) : Tabs := { s with log := s.log ++ [e] }

/-- Note what the session has to show from now on. -/
def activated (s : Tabs) (sessionId : SessionId) : Tabs :=
  { s with base := (s.session sessionId).scrollback, since := [] }

/-- `create`; a `ValueError` changes nothing. -/
def create (activate : Bool) (s : Tabs) : Tabs :=
  match s.manager.create activate with
  | none => s
  | some (sessionId, m) =>
    let previousActive := s.manager.active
    let s := { s with
      manager := m
      session := Function.update s.session sessionId ⟨[], []⟩ }
    let s := if m.active = some sessionId then s.activated sessionId else s
    if activate && previousActive.isSome && previousActive ≠ some sessionId then
      s.broadcast .reset
    else s

def switch (target : Option SessionId) (s : Tabs) : Tabs :=
  match s.manager.switch target with
  | (none, _) => s
  | (some sessionId, m) =>
    let s := (activated { s with manager := m } sessionId).broadcast .reset
    let scrollback := (s.session sessionId).scrollback
    if scrollback.isEmpty then s else s.broadcast (.output scrollback)

def close (sessionId : SessionId) (s : Tabs) : Tabs :=
  match s.manager.close sessionId with
  | none => s
  | some (wasActive, m) =>
    let s := { s with manager := m }
    match m.active with
    | none => s.create true
    | some active =>
      if wasActive then
        switch (some active) { s with manager := { m with active := none } }
      else s

/-- `_emit` of a session, with the callback of `_emit_for`. -/
def emit (maxSize : Nat) (sessionId : SessionId) (data : List UInt8) (s : Tabs) : Tabs :=
  let session := s.session sessionId
  let (out, tail, _) := filterPtyControls id (session.tail ++ data)
  if out.isEmpty then
    { s with session := Function.update s.session sessionId ⟨tail, session.scrollback⟩ }
  else
    let session : Session := ⟨tail, recordScrollback maxSize session.scrollback out⟩
    let s := { s with session := Function.update s.session sessionId session }
    if s.manager.active = some sessionId then
      { s.broadcast (.output out) with since := s.since ++ out }
    else s

/-- One operation; only a session that was created can emit. -/
def step (maxSize : Nat) (s : Tabs) : TabOp → Option Tabs
  | .create activate => some (s.create activate)
  | .switch sessionId => some (s.switch (some sessionId))
  | .close sessionId => some (s.close sessionId)
  | .emit sessionId data =>
    if 0 < sessionId ∧ sessionId ≤ s.manager.counter then some (s.emit maxSize sessionId data)
    else none

/-- The last tab is closed only with nothing on the screen. -/
def KeepsTab (s : Tabs) : TabOp → Prop
  | .close sessionId => s.manager.order = [sessionId] → screen s.log = []
  | _ => True

instance (s : Tabs) (op : TabOp) : Decidable (KeepsTab s op) :=
  match op with
  | .close sessionId => inferInstanceAs
      (Decidable (s.manager.order = [sessionId] → screen s.log = []))
  | .create _ | .switch _ | .emit _ _ => instDecidableTrue

/-! ## The invariant -/

structure Consistent (s : Tabs) : Prop where
  active : ∀ i, s.manager.active = some i → i ∈ s.manager.order
  bound : ∀ i ∈ s.manager.order, i ≤ s.manager.counter
  blank : s.manager.active = none → s.manager.order = [] ∧ screen s.log = []
  shown : ∀ i, s.manager.active = some i → screen s.log = s.base ++ s.since

variable {s : Tabs}

theorem consistent_start : Consistent start where
  active := nofun
  bound := nofun
  blank _ := ⟨rfl, rfl⟩
  shown := nofun

/-- A tab is active, and the screen shows it. -/
theorem consistent_of_active {i : SessionId} (hactive : s.manager.active = some i)
    (hmem : i ∈ s.manager.order) (hbound : ∀ j ∈ s.manager.order, j ≤ s.manager.counter)
    (hshown : screen s.log = s.base ++ s.since) : Consistent s where
  active _ hj := Option.some.inj (hactive.symm.trans hj) ▸ hmem
  bound := hbound
  blank hnone := absurd (hactive.symm.trans hnone) nofun
  shown _ _ := hshown

/-- A new tab that is activated starts on a blank screen: either it was
reset, or nothing was active before. -/
theorem consistent_create (h : Consistent s) (activate : Bool) :
    Consistent (s.create activate) := by
  cases hcreate : s.manager.create activate with
  | none => simpa only [create, hcreate] using h
  | some created =>
      obtain ⟨sessionId, m⟩ := created
      obtain ⟨hid, horder, hcounter, hactive⟩ := Manager.create_eq hcreate
      have hnew : sessionId ∈ m.order := by simp [horder]
      have hbound : ∀ i ∈ m.order, i ≤ m.counter := by
        intro i hi
        rw [horder] at hi
        rw [hcounter]
        rcases List.mem_append.mp hi with hi | hi
        · rw [hid]
          exact Nat.le_succ_of_le (h.bound i hi)
        · exact Nat.le_of_eq (List.mem_singleton.mp hi)
      cases hprevious : s.manager.active with
      | none =>
          obtain ⟨-, hblank⟩ := h.blank hprevious
          have hm : m.active = some sessionId := by rw [hactive, hprevious]; simp
          simp only [create, hcreate, hprevious, hm, if_true, Option.isSome_none, Bool.and_false,
            Bool.false_and, Bool.false_eq_true, if_false]
          refine consistent_of_active hm hnew hbound ?_
          simpa [activated] using hblank
      | some previous =>
          have hlt : previous ≠ sessionId := by
            rw [hid]
            exact Nat.ne_of_lt (Nat.lt_succ_of_le (h.bound previous (h.active previous hprevious)))
          cases activate with
          | true =>
              have hm : m.active = some sessionId := by rw [hactive]; simp
              simp only [create, hcreate, hprevious, hm, if_true, Option.isSome_some,
                Bool.and_true, Bool.true_and, decide_eq_true_eq, ne_eq, Option.some.injEq, hlt,
                not_false_eq_true]
              refine consistent_of_active hm hnew hbound ?_
              simp [broadcast, activated, paint]
          | false =>
              have hm : m.active = some previous := by rw [hactive, hprevious]; rfl
              simp only [create, hcreate, hprevious, hm, Option.some.injEq, hlt, if_false,
                Bool.false_and, Bool.false_eq_true]
              have hold : previous ∈ m.order := by
                rw [horder]
                exact List.mem_append_left _ (h.active previous hprevious)
              exact consistent_of_active hm hold hbound (h.shown previous hprevious)

/-- A switch that goes on shows the scrollback of its session. -/
theorem switch_shown {target : Option SessionId} {sessionId : SessionId} {m : Manager}
    (h : s.manager.switch target = (some sessionId, m)) :
    (s.switch target).manager = m
      ∧ screen (s.switch target).log = (s.switch target).base ++ (s.switch target).since := by
  cases hscroll : (s.session sessionId).scrollback with
  | nil => simp [switch, h, broadcast, activated, paint, hscroll]
  | cons b bs =>
      simp only [switch, h, broadcast, activated, hscroll, List.isEmpty_cons, Bool.false_eq_true,
        if_false, screen_snoc, paint, List.nil_append, List.append_nil, and_self]

theorem consistent_switch (h : Consistent s) (target : Option SessionId) :
    Consistent (s.switch target) := by
  rcases Manager.switch_cases target s.manager with ⟨hsame, -⟩ | ⟨i, rfl, hi, -, hswitch⟩
  · simpa only [switch, hsame] using h
  · obtain ⟨hmanager, hshown⟩ := switch_shown hswitch
    refine consistent_of_active (i := i) ?_ ?_ ?_ hshown
    · rw [hmanager]
    · rw [hmanager]
      exact hi
    · rw [hmanager]
      exact h.bound

theorem consistent_close (h : Consistent s) (sessionId : SessionId)
    (hok : s.manager.order = [sessionId] → screen s.log = []) :
    Consistent (s.close sessionId) := by
  cases hclose : s.manager.close sessionId with
  | none => simpa only [close, hclose] using h
  | some closed =>
      obtain ⟨wasActive, m⟩ := closed
      obtain ⟨hmem, hwas, horder, hcounter, hactive⟩ := Manager.close_eq hclose
      have hbound : ∀ i ∈ m.order, i ≤ m.counter := by
        intro i hi
        rw [horder] at hi
        rw [hcounter]
        exact h.bound i (List.mem_of_mem_erase hi)
      by_cases hthis : s.manager.active = some sessionId
      · rw [if_pos hthis] at hactive
        rw [hthis, decide_eq_true rfl] at hwas
        rcases Manager.successor_cases sessionId s.manager.order with
          ⟨hrest, hnone⟩ | ⟨next, hnext, hsome⟩
        · -- the last tab: its successor starts on what is left on the screen
          rw [hnone] at hactive
          simp only [close, hclose, hactive]
          have hlast : s.manager.order = [sessionId] := by
            rw [List.erase_eq_nil_iff] at hrest
            exact hrest.resolve_left (List.ne_nil_of_mem hmem)
          have hclosed : Consistent { s with manager := m } :=
            ⟨fun i hi => absurd (hactive.symm.trans hi) nofun, hbound,
              fun _ => ⟨horder.trans hrest, hok hlast⟩,
              fun i hi => absurd (hactive.symm.trans hi) nofun⟩
          exact consistent_create hclosed true
        · rw [hsome] at hactive
          simp only [close, hclose, hactive, hwas, if_true]
          have hswitch : Manager.switch (some next) { m with active := none }
              = (some next, { m with active := some next }) := by
            rw [Manager.switch, if_neg]
            rw [horder]
            simp [hnext]
          obtain ⟨hmanager, hshown⟩ := switch_shown
            (s := { s with manager := { m with active := none } }) hswitch
          refine consistent_of_active (i := next) ?_ ?_ ?_ hshown
          · rw [hmanager]
          · rw [hmanager]
            exact horder ▸ hnext
          · rw [hmanager]
            exact hbound
      · rw [if_neg hthis] at hactive
        rw [decide_eq_false hthis] at hwas
        cases hcurrent : s.manager.active with
        | none =>
            obtain ⟨hempty, -⟩ := h.blank hcurrent
            rw [hempty] at hmem
            exact (List.not_mem_nil hmem).elim
        | some current =>
            rw [hcurrent] at hactive
            simp only [close, hclose, hactive, hwas, Bool.false_eq_true, if_false]
            have hkept : current ∈ m.order := by
              rw [horder]
              refine (List.mem_erase_of_ne ?_).mpr (h.active current hcurrent)
              rintro rfl
              exact hthis hcurrent
            exact consistent_of_active hactive hkept hbound (h.shown current hcurrent)

/-- Only the active session's output reaches the screen. -/
theorem consistent_emit (h : Consistent s) (maxSize : Nat) (sessionId : SessionId)
    (data : List UInt8) : Consistent (s.emit maxSize sessionId data) := by
  rcases hfilter : filterPtyControls id ((s.session sessionId).tail ++ data) with ⟨out, tail, _⟩
  simp only [emit, hfilter]
  split
  · exact ⟨h.active, h.bound, h.blank, h.shown⟩
  · split
    · rename_i hactive
      refine ⟨h.active, h.bound, fun hnone => ?_, fun i _ => ?_⟩
      · exact absurd (hactive.symm.trans hnone) nofun
      · simp only [broadcast, screen_snoc, paint, h.shown sessionId hactive, List.append_assoc]
    · exact ⟨h.active, h.bound, h.blank, h.shown⟩

theorem consistent_step {maxSize : Nat} {s' : Tabs} (op : TabOp) (h : Consistent s)
    (hok : KeepsTab s op) (hs : step maxSize s op = some s') : Consistent s' := by
  cases op with
  | create activate =>
      obtain rfl := Option.some.inj hs
      exact consistent_create h activate
  | switch sessionId =>
      obtain rfl := Option.some.inj hs
      exact consistent_switch h _
  | close sessionId =>
      obtain rfl := Option.some.inj hs
      exact consistent_close h sessionId hok
  | emit sessionId data =>
      rw [step] at hs
      split at hs
      · obtain rfl := Option.some.inj hs
        exact consistent_emit h maxSize sessionId data
      · cases hs

/-- The screen shows the active session and nothing else. -/
def ShowsActive (s : Tabs) : Prop :=
  ∀ i, s.manager.active = some i → screen s.log = s.base ++ s.since

/-- **Screen consistency** in every state a sequence of operations
reaches that closes the last tab only with a blank screen. -/
theorem tabs_show_active {maxSize : Nat} (h : Reach (step maxSize) KeepsTab start s) :
    ShowsActive s :=
  (h.invariant Consistent consistent_start
    fun _ op _ hs hok hnext => consistent_step op hs hok hnext).shown

/-! ## Closing the last tab -/

instance (s : Tabs) : Decidable (ShowsActive s) :=
  match h : s.manager.active with
  | none => isTrue (by simp [ShowsActive, h])
  | some _ => decidable_of_iff (screen s.log = s.base ++ s.since) (by simp [ShowsActive, h])

/-- The only tab prints `A` and is closed: `A` stays on the screen of the
tab that replaces it. -/
theorem closing_last_tab_keeps_screen :
    ∃ s, Reach (step (2 ^ 20)) Free start s ∧ ¬ShowsActive s := by
  obtain ⟨s, hs, hbad⟩ := reach_of_replay (p := fun s : Tabs => decide ¬ShowsActive s)
    (show (replay (step (2 ^ 20)) Free start
      [.create true, .emit 1 [0x41], .close 1, .emit 2 [0x42]]).map _ = some true by decide)
  exact ⟨s, hs, of_decide_eq_true hbad⟩

/-- Two tabs, a switch, output of both, and a close. -/
theorem two_tabs_show_active :
    ∃ s : Tabs, screen s.log = [0x42, 0x43] ∧ s.manager.active = some 2 ∧ ShowsActive s := by
  obtain ⟨s, hs, hshown⟩ := reach_of_replay
    (p := fun s : Tabs => decide (screen s.log = [0x42, 0x43] ∧ s.manager.active = some 2))
    (show (replay (step (2 ^ 20)) KeepsTab start
      [.create true, .emit 1 [0x41], .create true, .emit 2 [0x42], .switch 1, .emit 2 [0x43],
        .close 1]).map _ = some true by decide)
  obtain ⟨hscreen, hactive⟩ := of_decide_eq_true hshown
  exact ⟨s, hscreen, hactive, tabs_show_active hs⟩

end Tabs

end Zmux
