import Mathlib.Data.List.Basic
import Mathlib.Data.Rat.Floor
import Zmux.Runs

/-!
# Fitting the terminal to the page

The page measures how many columns and rows fit (`fitTerminal` of
`terminal.html`), resizes xterm when that has changed, and then tells the
backend, if the WebSocket is open at that moment. It is called from
timers: one that window and viewport events share, and others that the
fonts and every opened socket set. Sockets open, close and are replaced in
any order.

What the backend receives are the sizes of exactly those changes that
were made on an open socket (`Kept.sent`). So after a fit on an open
socket the two sides agree precisely when the fit changes the size or the
last such change led to the present one (`fit_agrees_iff`). The fit that a
new connection brings does not repeat a size that was set before.
-/

namespace Zmux

namespace Page

/-! ## Measuring -/

/-- What `fitTerminal` measures. Paddings are missing where the style cannot
be computed, and the cell where xterm has not measured it. -/
structure Layout where
  clientWidth : ℚ
  clientHeight : ℚ
  padding : Option (ℚ × ℚ)
  cell : Option (ℚ × ℚ)
  span : ℚ × ℚ

structure Size where
  cols : ℤ
  rows : ℤ
deriving DecidableEq

/-- `a || b` on numbers. -/
def orElse (a b : ℚ) : ℚ := if a = 0 then b else a

/-- The columns and rows that fit. -/
def Layout.size (l : Layout) : Size :=
  let padding := l.padding.getD (16, 16)
  let cell := l.cell.getD (0, 0)
  let charWidth := orElse (orElse cell.1 l.span.1) (78 / 10)
  let charHeight := orElse (orElse cell.2 l.span.2) 18
  { cols := max 2 (max 0 (l.clientWidth - padding.1) / charWidth).floor
    rows := max 1 (max 0 (l.clientHeight - padding.2) / charHeight).floor }

theorem Layout.size_pos (l : Layout) : 0 < l.size.cols ∧ 0 < l.size.rows :=
  ⟨lt_of_lt_of_le (by decide) (le_max_left ..), lt_of_lt_of_le (by decide) (le_max_left ..)⟩

/-! ## The page and its backend -/

inductive ReadyState where
  | connecting
  | opened
  | closed
deriving DecidableEq

/-- `ws` is the last of the sockets. `received` are the resize messages the
backend has received, and `manager` is the size `SessionManager` has.
`resizes` is a ghost: the sizes xterm was given, and whether the socket was
open then. -/
structure State where
  term : Option Size
  sockets : List ReadyState
  /-- `resizeTimeout` is running. -/
  resizeTimeout : Bool
  /-- Other timers that call `fitTerminal`. -/
  timeouts : Nat
  received : List Size
  manager : Size
  resizes : List (Size × Bool)
deriving DecidableEq

/-- xterm's size ahead of the first fit, and the manager's. -/
def standard : Size := ⟨80, 24⟩

def start : State where
  term := none
  sockets := []
  resizeTimeout := false
  timeouts := 0
  received := []
  manager := standard
  resizes := []

/-- `ws && ws.readyState === WebSocket.OPEN`. -/
def State.wsOpen (s : State) : Bool := s.sockets.getLast? = some .opened

/-- `SessionManager.resize`, as far as the size goes. -/
def managerResize (manager size : Size) : Size :=
  if size.cols ≤ 0 ∨ size.rows ≤ 0 then manager else size

/-- `fitTerminal` with what it measures. -/
def State.fitTerminal (s : State) (l : Layout) : State :=
  match s.term with
  | none => s
  | some size =>
    if size ≠ l.size then
      let s' := { s with term := some l.size, resizes := s.resizes ++ [(l.size, s.wsOpen)] }
      if s.wsOpen then
        { s' with
          received := s.received ++ [l.size]
          manager := managerResize s.manager l.size }
      else s'
    else s

inductive Action where
  /-- `initTerminal` and `connectWebSocket`. -/
  | boot
  /-- A `resize` of the window, or a change of the visual viewport. -/
  | viewport
  | fontsReady
  | toggleKeys (l : Layout)
  | resizeTimer (l : Layout)
  | timer (l : Layout)
  | connect
  | opened (i : Nat)
  | closed (i : Nat)

def step (s : State) : Action → Option State
  | .boot =>
    if s.term.isNone then
      some { s with term := some standard, sockets := s.sockets ++ [.connecting] }
    else none
  | .viewport => some { s with resizeTimeout := true }
  | .fontsReady => some { s with resizeTimeout := false, timeouts := s.timeouts + 1 }
  | .toggleKeys l => some (s.fitTerminal l)
  | .resizeTimer l =>
    if s.resizeTimeout then some ({ s with resizeTimeout := false }.fitTerminal l) else none
  | .timer l =>
    if 0 < s.timeouts then some ({ s with timeouts := s.timeouts - 1 }.fitTerminal l) else none
  | .connect =>
    if s.term.isSome then some { s with sockets := s.sockets ++ [.connecting] } else none
  | .opened i =>
    if s.sockets[i]? = some .connecting then
      some { s with sockets := s.sockets.set i .opened, timeouts := s.timeouts + 1 }
    else none
  | .closed i =>
    if i < s.sockets.length then some { s with sockets := s.sockets.set i .closed } else none

/-- The fit an action runs. -/
def Action.fit : Action → Option Layout
  | .toggleKeys l => some l
  | .resizeTimer l => some l
  | .timer l => some l
  | _ => none

/-! ## What is sent -/

/-- The sizes xterm was given on an open socket. -/
def sentOf (resizes : List (Size × Bool)) : List Size := (resizes.filter Prod.snd).map Prod.fst

/-- The page has sent what it had to, and the backend has it. -/
structure Kept (s : State) : Prop where
  sent : s.received = sentOf s.resizes
  positive : ∀ size ∈ s.received, 0 < size.cols ∧ 0 < size.rows
  manager : s.manager = s.received.getLast?.getD standard

theorem kept_start : Kept start := ⟨rfl, fun _ h => (List.not_mem_nil h).elim, rfl⟩

theorem fitTerminal_unchanged {s : State} {l : Layout} (h : s.term = some l.size) :
    s.fitTerminal l = s := by
  simp only [State.fitTerminal, h, ne_eq, not_true_eq_false, if_false]

/-- A fit that changes the size, on an open socket and on another one. -/
theorem fitTerminal_changed {s : State} {l : Layout} {size : Size} (hterm : s.term = some size)
    (hne : size ≠ l.size) :
    s.fitTerminal l
      = if s.wsOpen then
          { s with
            term := some l.size
            resizes := s.resizes ++ [(l.size, true)]
            received := s.received ++ [l.size]
            manager := l.size }
        else { s with term := some l.size, resizes := s.resizes ++ [(l.size, false)] } := by
  have hmanager : managerResize s.manager l.size = l.size := by
    obtain ⟨hcols, hrows⟩ := l.size_pos
    exact if_neg (not_or.mpr ⟨not_le.mpr hcols, not_le.mpr hrows⟩)
  simp only [State.fitTerminal, hterm, ne_eq, hne, not_false_eq_true, if_true, hmanager]
  cases hopen : s.wsOpen <;> rfl

theorem Kept.fitTerminal {s : State} (h : Kept s) (l : Layout) : Kept (s.fitTerminal l) := by
  cases hterm : s.term with
  | none =>
      rw [State.fitTerminal, hterm]
      exact h
  | some size =>
      by_cases hsize : size = l.size
      · rw [fitTerminal_unchanged (hterm.trans (congrArg some hsize))]
        exact h
      · rw [fitTerminal_changed hterm hsize]
        split
        · refine ⟨?_, fun sent hsent => ?_, ?_⟩
          · simp only [sentOf, List.filter_append, List.map_append, h.sent]
            rfl
          · rcases List.mem_append.mp hsent with hsent | hsent
            · exact h.positive sent hsent
            · rw [List.mem_singleton.mp hsent]
              exact l.size_pos
          · rw [List.getLast?_concat]
            rfl
        · refine ⟨?_, h.positive, h.manager⟩
          simp only [sentOf, List.filter_append, List.map_append, h.sent]
          simp

/-- What the fits are about is the same in both states. -/
structure Alike (s s' : State) : Prop where
  received : s'.received = s.received
  manager : s'.manager = s.manager
  resizes : s'.resizes = s.resizes

theorem Kept.alike {s s' : State} (h : Kept s) (halike : Alike s s') : Kept s' where
  sent := by rw [halike.received, halike.resizes, h.sent]
  positive := by
    rw [halike.received]
    exact h.positive
  manager := by rw [halike.manager, halike.received, h.manager]

/-- An action that runs a fit does nothing else to xterm and the sockets. -/
theorem step_fit {s s' : State} {a : Action} {l : Layout} (hfit : a.fit = some l)
    (hstep : step s a = some s') :
    ∃ s₁, s' = s₁.fitTerminal l ∧ Alike s s₁ ∧ s₁.term = s.term ∧ s₁.wsOpen = s.wsOpen := by
  cases a with
  | toggleKeys _ =>
      obtain rfl := Option.some.inj hfit
      obtain rfl := Option.some.inj hstep
      exact ⟨s, rfl, ⟨rfl, rfl, rfl⟩, rfl, rfl⟩
  | resizeTimer _ | timer _ =>
      obtain rfl := Option.some.inj hfit
      rw [step] at hstep
      split at hstep
      · obtain rfl := Option.some.inj hstep
        exact ⟨_, rfl, ⟨rfl, rfl, rfl⟩, rfl, rfl⟩
      · cases hstep
  | boot | viewport | fontsReady | connect | opened _ | closed _ => cases hfit

/-- Any other action leaves the sizes alone. -/
theorem step_quiet {s s' : State} {a : Action} (hfit : a.fit = none)
    (hstep : step s a = some s') : Alike s s' := by
  cases a with
  | viewport | fontsReady =>
      obtain rfl := Option.some.inj hstep
      exact ⟨rfl, rfl, rfl⟩
  | boot | connect | opened _ | closed _ =>
      rw [step] at hstep
      split at hstep
      · obtain rfl := Option.some.inj hstep
        exact ⟨rfl, rfl, rfl⟩
      · cases hstep
  | toggleKeys _ | resizeTimer _ | timer _ => cases hfit

theorem kept_step {s s' : State} {a : Action} (h : Kept s) (hstep : step s a = some s') :
    Kept s' := by
  cases hfit : a.fit with
  | none => exact h.alike (step_quiet hfit hstep)
  | some l =>
      obtain ⟨s₁, rfl, halike, -, -⟩ := step_fit hfit hstep
      exact (h.alike halike).fitTerminal l

/-! ## Agreement -/

/-- The last resize message carries xterm's size, and so the manager has it. -/
structure Agrees (s : State) : Prop where
  message : s.received.getLast? = s.term
  manager : s.term = some s.manager

/-- xterm's last change on an open socket gave it `size`. -/
def LastSent (s : State) (size : Size) : Prop := (sentOf s.resizes).getLast? = some size

/-- **After a fit on an open socket**, in any run, both sides agree
precisely when the fit changes the size or the size was sent last. -/
theorem fit_agrees_iff {s s' : State} {a : Action} {l : Layout} {size : Size}
    (hrun : Reach step Free start s) (hfit : a.fit = some l) (hopen : s.wsOpen = true)
    (hterm : s.term = some size) (hstep : step s a = some s') :
    Agrees s' ↔ size ≠ l.size ∨ LastSent s size := by
  have hkept : Kept s := hrun.invariant Kept kept_start fun _ _ _ h _ hnext => kept_step h hnext
  obtain ⟨s₁, rfl, halike, hterm₁, hopen₁⟩ := step_fit hfit hstep
  rw [hterm] at hterm₁
  rw [hopen] at hopen₁
  have hkept₁ : Kept s₁ := hkept.alike halike
  have hlast : LastSent s size ↔ s₁.received.getLast? = some size := by
    rw [LastSent, hkept₁.sent, halike.resizes]
  by_cases hsize : size = l.size
  · rw [fitTerminal_unchanged (hterm₁.trans (congrArg some hsize)), hlast]
    constructor
    · intro h
      exact Or.inr (h.message.trans hterm₁)
    · rintro (h | h)
      · exact (h hsize).elim
      · refine ⟨h.trans hterm₁.symm, ?_⟩
        rw [hterm₁, hkept₁.manager, h]
        rfl
  · rw [fitTerminal_changed hterm₁ hsize, if_pos hopen₁]
    refine iff_of_true ⟨?_, rfl⟩ (Or.inl hsize)
    exact List.getLast?_concat

/-! ## A fit before the socket is open -/

/-- 1016 by 616 pixels with cells of 10 by 20. -/
def wide : Layout where
  clientWidth := 1016
  clientHeight := 616
  padding := none
  cell := some (10, 20)
  span := (0, 0)

/-- The first fit runs while the socket is connecting. The fit that the
opened socket brings finds xterm at 100 by 30 already, and the backend is
never told. -/
theorem early_fit_is_not_sent : ∃ s s', Reach step Free start s ∧ s.wsOpen = true
    ∧ step s (.timer wide) = some s' ∧ s'.term = some ⟨100, 30⟩ ∧ s'.received = []
    ∧ s'.manager = ⟨80, 24⟩ ∧ ¬Agrees s' := by
  obtain ⟨s, hs, hend⟩ := reach_of_replay
    (p := fun s : State => s.wsOpen && decide ((step s (.timer wide)).map
      (fun s' => (s'.term, s'.received, s'.manager)) = some (some ⟨100, 30⟩, [], ⟨80, 24⟩)))
    (show (replay step Free start [.boot, .viewport, .resizeTimer wide, .opened 0]).map _
      = some true by decide +kernel)
  rw [Bool.and_eq_true, decide_eq_true_eq] at hend
  obtain ⟨s', hstep, heq⟩ := Option.map_eq_some_iff.mp hend.2
  obtain ⟨hterm, hreceived, hmanager⟩ : s'.term = some ⟨100, 30⟩ ∧ s'.received = []
    ∧ s'.manager = ⟨80, 24⟩ := by simpa using heq
  refine ⟨s, s', hs, hend.1, hstep, hterm, hreceived, hmanager, fun h => ?_⟩
  have hmessage := h.message
  rw [hreceived, hterm] at hmessage
  cases hmessage

/-- A fit that changes the size after the socket is open. -/
theorem late_fit_agrees : ∃ s s', Reach step Free start s
    ∧ step s (.timer wide) = some s' ∧ Agrees s' := by
  obtain ⟨s, hs, hend⟩ := reach_of_replay
    (p := fun s : State => s.wsOpen && decide (s.term = some standard)
      && (step s (.timer wide)).isSome)
    (show (replay step Free start [.boot, .opened 0]).map _ = some true by decide)
  simp only [Bool.and_eq_true, decide_eq_true_eq] at hend
  obtain ⟨s', hstep⟩ := Option.isSome_iff_exists.mp hend.2
  have hchange : standard ≠ wide.size := by decide +kernel
  exact ⟨s, s', hs, hstep,
    (fit_agrees_iff hs rfl hend.1.1 hend.1.2 hstep).mpr (Or.inl hchange)⟩

end Page

end Zmux
