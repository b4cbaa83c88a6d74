import Mathlib.Logic.Relation
import Zmux.TabStrip

/-!
# Gestures on the tab strip

What a user sees of the manager is a bar: some tabs, one of which is on
screen. A tap shows a tab, a long hold closes it, and the `+` opens one
(`Bar.after`).

`strip_shows` says that after every message the strip shows a bar, the one
of the manager. `gesture_meant` says that a gesture on it comes out as the
bar says, on the whole way from the tab under the finger to the state that
the server sends back. The message of a gesture names the session and not
the place, so another client may close tabs in the meantime: what is
closed does not come back under its id, and a late gesture on it changes
nothing (`late_gesture`).
-/

namespace Zmux

namespace TabStrip

open Json (get?)
open WsControl (Call Host Interpreter controlObject handleClientMessage perform sendAction session?
  sessionCodes)

/-! ## The bar -/

/-- Some tabs, one of which is on screen. -/
structure Bar where
  count : ℕ
  active : ℕ
  active_lt : active < count
  count_le : count ≤ maxSessions
deriving DecidableEq

inductive Gesture where
  /-- A tap on the tab at this place. -/
  | tap (place : ℕ)
  /-- It is held down. -/
  | hold (place : ℕ)
  /-- A tap on the `+`. -/
  | add
deriving DecidableEq

namespace Bar

def tap (bar : Bar) (place : ℕ) (h : place < bar.count) : Bar where
  count := bar.count
  active := place
  active_lt := h
  count_le := bar.count_le

/-- The tab on screen stays there. If it is the one that is closed, its
right neighbour takes over, or else the last tab. -/
def hold (bar : Bar) (place : ℕ) (h : place < bar.count) : Bar :=
  if hone : bar.count = 1 then ⟨1, 0, Nat.one_pos, by decide⟩
  else
    { count := bar.count - 1
      active :=
        if place < bar.active ∨ (place = bar.active ∧ place = bar.count - 1) then bar.active - 1
        else bar.active
      active_lt := by
        have := bar.active_lt
        split <;> omega
      count_le := Nat.le_trans (Nat.sub_le ..) bar.count_le }

def add (bar : Bar) (h : bar.count < maxSessions) : Bar where
  count := bar.count + 1
  active := bar.count
  active_lt := Nat.lt_succ_self _
  count_le := h

/-- The bar after a gesture on something that is there. -/
def after (bar : Bar) : Gesture → Option Bar
  | .tap place => if h : place < bar.count then some (bar.tap place h) else none
  | .hold place => if h : place < bar.count then some (bar.hold place h) else none
  | .add => if h : bar.count < maxSessions then some (bar.add h) else none

end Bar

/-- The strip shows this bar: one tab is marked, it has no dot, the labels
count, and there is a `+` if there is room. -/
structure Shows (strip : Strip) (bar : Bar) : Prop where
  active : strip.tabs.map Tab.active = (List.range bar.count).map fun k => decide (k = bar.active)
  labels : strip.tabs.map Tab.label = (List.range bar.count).map (· + 1)
  dots : ∀ tab ∈ strip.tabs, tab.busy = true → tab.active = false
  add : strip.add = decide (bar.count < maxSessions)

/-- A strip shows one bar. -/
theorem Shows.unique {strip : Strip} {bar bar' : Bar} (h : Shows strip bar)
    (h' : Shows strip bar') : bar = bar' := by
  have hcount : bar.count = bar'.count := by
    have hlength := congrArg List.length (h.labels.symm.trans h'.labels)
    simpa using hlength
  have hmarks := h.active.symm.trans h'.active
  have hplace := congrArg (fun marks => marks[bar.active]?) hmarks
  have hlt := hcount ▸ bar.active_lt
  have hactive : bar.active = bar'.active := by
    simpa [bar.active_lt, hlt] using hplace
  obtain ⟨count, active, _, _⟩ := bar
  obtain ⟨count', active', _, _⟩ := bar'
  simp_all

/-! ## The manager -/

/-- What holds of the manager between two messages. -/
structure Sound (m : Manager) : Prop where
  nodup : m.order.Nodup
  bounded : m.Bounded
  cap : m.order.length ≤ maxSessions
  active : ∃ i ∈ m.order, m.active = some i

/-- The manager after `create` with room for a tab. -/
def opened (m : Manager) : Manager where
  order := m.order ++ [m.counter + 1]
  active := some (m.counter + 1)
  counter := m.counter + 1

/-- The manager after `close` of one of several tabs. -/
def closed (i : SessionId) (m : Manager) : Manager :=
  { m with
    order := m.order.erase i
    active := if m.active = some i then Manager.successor i m.order else m.active }

section Manager

variable {m : Manager} {i : SessionId} {tabs : Geometry.Tabs} {spawn : Geometry.Tabs.Spawn}

theorem create_of_room (h : m.order.length < maxSessions) :
    m.create true = some (m.counter + 1, opened m) := by
  rw [Manager.create, if_neg (Nat.not_le.mpr h)]
  rfl

theorem create_of_full (h : maxSessions ≤ m.order.length) : m.create true = none := if_pos h

theorem manager_create (hroom : tabs.manager.order.length < maxSessions) :
    (tabs.create true spawn).manager = opened tabs.manager := by
  rw [Geometry.Tabs.create, create_of_room hroom]
  dsimp only
  rw [manager_enter, manager_resizeSession]
  rfl

theorem create_full (hfull : maxSessions ≤ tabs.manager.order.length) :
    tabs.create true spawn = tabs := by
  rw [Geometry.Tabs.create, create_of_full hfull]

theorem manager_switch (hi : i ∈ tabs.manager.order) :
    (tabs.switch (some i)).manager = { tabs.manager with active := some i } := by
  rw [Geometry.Tabs.switch]
  rcases Manager.switch_cases (some i) tabs.manager with ⟨hsame, hactive⟩ | ⟨j, hj, -, -, hswitch⟩
  · rw [hsame]
    dsimp only
    rw [← hactive i rfl hi]
  · obtain rfl := Option.some.inj hj
    rw [hswitch]
    exact manager_resizeSession ..

theorem close_of_mem (hi : i ∈ m.order) :
    m.close i = some (decide (m.active = some i), closed i m) := by
  rw [Manager.close, if_neg (not_not_intro hi)]
  simp [closed]

theorem closed_active (h : Sound m) (hrest : m.order.erase i ≠ []) :
    ∃ next ∈ m.order.erase i, (closed i m).active = some next := by
  obtain ⟨active, hmem, hactive⟩ := h.active
  by_cases hsame : active = i
  · rcases Manager.successor_cases i m.order with ⟨hnil, -⟩ | ⟨next, hnext, hsuccessor⟩
    · exact absurd hnil hrest
    · exact ⟨next, hnext, by simp [closed, hactive, hsame, hsuccessor]⟩
  · exact ⟨active, (List.mem_erase_of_ne hsame).mpr hmem, by simp [closed, hactive, hsame]⟩

theorem manager_close (h : Sound tabs.manager) (hi : i ∈ tabs.manager.order)
    (hrest : tabs.manager.order.erase i ≠ []) :
    (tabs.close i spawn).manager = closed i tabs.manager := by
  obtain ⟨next, hnext, hactive⟩ := closed_active h hrest
  rw [Geometry.Tabs.close, close_of_mem hi]
  dsimp only
  rw [hactive]
  dsimp only
  split
  · -- `switch` activates again what the block of `close` has chosen
    rw [manager_switch hnext]
    exact congrArg (fun active => { closed i tabs.manager with active }) hactive.symm
  · rfl

/-- The last tab is replaced by a new one. -/
theorem manager_close_last (h : Sound tabs.manager) (hi : tabs.manager.order = [i]) :
    (tabs.close i spawn).manager = opened { tabs.manager with order := [] } := by
  have hmem : i ∈ tabs.manager.order := hi ▸ List.mem_singleton_self i
  have hactive : tabs.manager.active = some i := by
    obtain ⟨active, hmem, hactive⟩ := h.active
    have hsame : active = i := by simpa [hi] using hmem
    rw [hactive, hsame]
  have herase : tabs.manager.order.erase i = [] := by simp [hi]
  have hnone : (closed i tabs.manager).active = none := by
    simp [closed, hactive, hi, Manager.successor]
  rw [Geometry.Tabs.close, close_of_mem hmem]
  dsimp only
  rw [hnone]
  have hroom : (closed i tabs.manager).order.length < maxSessions := by
    simp [closed, herase, maxSessions]
  refine Eq.trans (manager_create hroom) ?_
  exact congrArg (fun order => opened { tabs.manager with order }) herase

/-- All that a call can do to the manager. -/
inductive Change (m : Manager) : Manager → Prop where
  | same : Change m m
  | activated {i : SessionId} : i ∈ m.order → Change m { m with active := some i }
  | opened : m.order.length < maxSessions → Change m (opened m)
  | closed {i : SessionId} : i ∈ m.order → m.order.erase i ≠ [] → Change m (closed i m)
  | replaced {i : SessionId} : m.order = [i] → Change m (TabStrip.opened { m with order := [] })

theorem eq_singleton_of_erase (hi : i ∈ m.order) (hrest : m.order.erase i = []) :
    m.order = [i] := by
  have hlength := List.length_erase_of_mem hi
  rw [hrest, List.length_nil] at hlength
  have hone : m.order.length = 1 := by
    have := List.length_pos_of_mem hi
    omega
  obtain ⟨j, hj⟩ := List.length_eq_one_iff.mp hone
  have hsame : i = j := by simpa [hj] using hi
  rw [hj, hsame]

theorem mem_of_session? {text : Codes} (h : session? tabs text = some i) :
    i ∈ tabs.manager.order := List.mem_of_find?_eq_some h

theorem change_afterCall (h : Sound tabs.manager) (call : Call) :
    Change tabs.manager (afterCall spawn tabs call).manager := by
  cases call with
  | data | input | togglePty | broadcast | sendSessionsState => exact .same
  | resize cols rows => exact manager_resize cols rows ▸ .same
  | create =>
      rcases Nat.lt_or_ge tabs.manager.order.length maxSessions with hroom | hfull
      · exact (@manager_create tabs spawn hroom).symm ▸ .opened hroom
      · have hsame : afterCall spawn tabs .create = tabs := create_full hfull
        exact hsame.symm ▸ .same
  | switch text =>
      dsimp only [afterCall]
      cases htarget : session? tabs text with
      | none => exact .same
      | some i =>
          rw [manager_switch (mem_of_session? htarget)]
          exact .activated (mem_of_session? htarget)
  | close text =>
      dsimp only [afterCall]
      cases htarget : session? tabs text with
      | none => exact .same
      | some i =>
          have hi := mem_of_session? htarget
          by_cases hrest : tabs.manager.order.erase i = []
          · have hlast := eq_singleton_of_erase hi hrest
            exact (@manager_close_last i tabs spawn h hlast).symm ▸ .replaced hlast
          · exact (@manager_close i tabs spawn h hi hrest).symm ▸ .closed hi hrest

theorem sound_opened (hnodup : m.order.Nodup) (hbounded : ∀ i ∈ m.order, i ≤ m.counter)
    (hroom : m.order.length < maxSessions) : Sound (opened m) where
  nodup := by
    rw [opened, ← List.concat_eq_append]
    exact hnodup.concat fun hmem => absurd (hbounded _ hmem) (Nat.not_succ_le_self _)
  bounded := by
    refine ⟨fun i hi => ?_, fun i hi => Nat.le_of_eq (Option.some.inj hi).symm⟩
    rcases List.mem_append.mp hi with hold | hnew
    · exact Nat.le_succ_of_le (hbounded i hold)
    · exact Nat.le_of_eq (List.mem_singleton.mp hnew)
  cap := by
    rw [opened, List.length_append]
    exact hroom
  active := ⟨m.counter + 1, List.mem_concat_self .., rfl⟩

theorem Sound.change {m' : Manager} (h : Sound m) (hchange : Change m m') : Sound m' := by
  cases hchange with
  | same => exact h
  | activated hi => exact ⟨h.nodup, h.bounded.activate hi, h.cap, _, hi, rfl⟩
  | opened hroom => exact sound_opened h.nodup h.bounded.order hroom
  | @closed i hi hrest =>
      obtain ⟨next, hnext, hactive⟩ := closed_active h hrest
      refine ⟨h.nodup.erase i, h.bounded.close (close_of_mem hi), ?_, next, hnext, hactive⟩
      exact Nat.le_trans (List.length_erase_le ..) h.cap
  | replaced _ =>
      exact sound_opened List.nodup_nil (fun _ h => absurd h List.not_mem_nil) (Nat.zero_lt_succ 7)

/-- A session that has been closed. -/
def Gone (i : SessionId) (m : Manager) : Prop := i ∉ m.order ∧ i ≤ m.counter

/-- What is closed does not come back under its id. -/
theorem Gone.change {m' : Manager} (h : Gone i m) (hchange : Change m m') : Gone i m' := by
  obtain ⟨hnew, hle⟩ := h
  have hopened (order : List SessionId) (horder : i ∉ order) :
      Gone i (opened { m with order := order }) := by
    refine ⟨fun hmem => ?_, Nat.le_succ_of_le hle⟩
    rcases List.mem_append.mp hmem with hold | hlast
    · exact horder hold
    · exact absurd (List.mem_singleton.mp hlast ▸ hle) (Nat.not_succ_le_self _)
  cases hchange with
  | same => exact ⟨hnew, hle⟩
  | activated _ => exact ⟨hnew, hle⟩
  | opened _ => exact hopened m.order hnew
  | closed _ _ => exact ⟨fun hmem => hnew (List.mem_of_mem_erase hmem), hle⟩
  | replaced _ => exact hopened [] List.not_mem_nil

end Manager

/-! ## Runs -/

section Runs

open Relation (ReflTransGen)

variable {py : Interpreter} {spawn : Geometry.Tabs.Spawn} {busy : SessionId → Bool} {s s' : System}
  {m m' : Manager} {i : SessionId}

theorem Sound.changes (h : Sound m) (hchanges : ReflTransGen Change m m') : Sound m' := by
  induction hchanges with
  | refl => exact h
  | tail _ hchange ih => exact ih.change hchange

theorem Gone.changes (h : Gone i m) (hchanges : ReflTransGen Change m m') : Gone i m' := by
  induction hchanges with
  | refl => exact h
  | tail _ hchange ih => exact ih.change hchange

theorem counter_le (hchanges : ReflTransGen Change m m') : m.counter ≤ m'.counter := by
  induction hchanges with
  | refl => exact Nat.le_refl _
  | tail _ hchange ih =>
      refine ih.trans ?_
      cases hchange with
      | same | activated | closed => exact Nat.le_refl _
      | opened | replaced => exact Nat.le_succ _

theorem changes_calls (calls : List Call) {tabs : Geometry.Tabs} (h : Sound tabs.manager) :
    ReflTransGen Change tabs.manager (calls.foldl (afterCall spawn) tabs).manager := by
  induction calls generalizing tabs with
  | nil => exact .refl
  | cons call calls ih =>
      have hfirst := @change_afterCall tabs spawn h call
      exact .head hfirst (ih (h.change hfirst))

theorem changes_step (h : Sound s.tabs.manager) {a : Step} (hstep : step py s a = some s') :
    ReflTransGen Change s.tabs.manager s'.tabs.manager := by
  have hshell (op : Geometry.Tabs.Op) (hshell : OfShell op)
      (hstep : (s.tabs.step op).map (fun tabs => { s with tabs }) = some s') :
      ReflTransGen Change s.tabs.manager s'.tabs.manager := by
    obtain ⟨tabs, htabs, rfl⟩ := Option.map_eq_some_iff.mp hstep
    exact (manager_step htabs hshell).symm ▸ .refl
  cases a with
  | message payload spawn busy =>
      obtain rfl := Option.some.inj hstep
      change ReflTransGen Change _ (serve spawn busy s.tabs _).1.manager
      rw [fst_serve]
      exact changes_calls _ h
  | enter sessionId spawn => exact hshell (.enter sessionId spawn) trivial hstep
  | exit sessionId => exact hshell (.exit sessionId) trivial hstep
  | leave sessionId => exact hshell (.leave sessionId) trivial hstep

theorem sound_start (spawn : Geometry.Tabs.Spawn) (busy : SessionId → Bool) :
    Sound (start spawn busy).tabs.manager := by
  have hroom : Geometry.Tabs.start.manager.order.length < maxSessions := Nat.zero_lt_succ 7
  change Sound (Geometry.Tabs.start.create true spawn).manager
  rw [manager_create hroom]
  exact sound_opened List.nodup_nil (fun _ h => absurd h List.not_mem_nil) (Nat.zero_lt_succ 7)

theorem sound_of_reach {ok : System → Step → Prop}
    (h : Reach (step py) ok (start spawn busy) s) : Sound s.tabs.manager :=
  h.invariant (fun s => Sound s.tabs.manager) (sound_start spawn busy)
    fun _ _ _ hs _ hstep => hs.changes (changes_step hs hstep)

theorem gone_of_reach {ok : System → Step → Prop} (hsound : Sound s.tabs.manager)
    (hgone : Gone i s.tabs.manager) (h : Reach (step py) ok s s') :
    Sound s'.tabs.manager ∧ Gone i s'.tabs.manager :=
  h.invariant (fun s => Sound s.tabs.manager ∧ Gone i s.tabs.manager) ⟨hsound, hgone⟩
    fun _ _ _ hs _ hstep =>
      have hchanges := changes_step hs.1 hstep
      ⟨hs.1.changes hchanges, hs.2.changes hchanges⟩

end Runs

/-! ## The bar of the manager -/

/-- The tabs of the manager are those of the bar, at their places. -/
structure Means (m : Manager) (bar : Bar) : Prop where
  count : m.order.length = bar.count
  active : m.order[bar.active]? = m.active

section Means

variable {m : Manager} {bar : Bar} {busy : SessionId → Bool}

theorem Sound.means (h : Sound m) : ∃ bar, Means m bar := by
  obtain ⟨i, hi, hactive⟩ := h.active
  obtain ⟨place, hlt, rfl⟩ := List.mem_iff_getElem.mp hi
  refine ⟨⟨m.order.length, place, hlt, h.cap⟩, rfl, ?_⟩
  rw [hactive]
  exact List.getElem?_eq_getElem hlt

/-- The tab that is marked is the one at the place of the bar. -/
theorem Means.marked (h : Means m bar) (hnodup : m.order.Nodup) {k : ℕ}
    (hk : k < m.order.length) : m.active = some m.order[k] ↔ k = bar.active := by
  have hlt : bar.active < m.order.length := h.count ▸ bar.active_lt
  rw [← h.active, List.getElem?_eq_getElem hlt, Option.some_inj, hnodup.getElem_inj_iff]
  exact eq_comm

/-- The strip for a manager shows its bar. -/
theorem Means.shows (h : Means m bar) (hnodup : m.order.Nodup) :
    Shows (Strip.of busy m) bar where
  active := by
    refine List.ext_getElem (by simp [Strip.of, h.count]) fun k hk _ => ?_
    have hlt : k < m.order.length := by simpa [Strip.of] using hk
    simp [Strip.of, h.marked hnodup hlt]
  labels := by
    refine List.ext_getElem (by simp [Strip.of, h.count]) fun k _ _ => ?_
    simp [Strip.of]
  dots := by
    intro tab htab hbusy
    obtain ⟨k, hk, rfl⟩ := List.mem_mapIdx.mp htab
    simp_all
  add := by simp [Strip.of, h.count]

theorem Means.tap (h : Means m bar) {place : ℕ} (hplace : place < bar.count)
    (hk : place < m.order.length) :
    Means { m with active := some m.order[place] } (bar.tap place hplace) where
  count := h.count
  active := List.getElem?_eq_getElem hk

theorem Means.add (h : Means m bar) (hroom : bar.count < maxSessions) :
    Means (opened m) (bar.add hroom) where
  count := by simp [opened, Bar.add, h.count]
  active := by simp [opened, Bar.add, ← h.count]

theorem Means.hold_last (h : Means m bar) {place : ℕ} (hplace : place < bar.count)
    (hone : m.order.length = 1) :
    Means (opened { m with order := [] }) (bar.hold place hplace) := by
  rw [Bar.hold, dif_pos (h.count.symm.trans hone)]
  exact ⟨rfl, rfl⟩

/-- The right neighbour takes over, or else the last tab. -/
theorem successor_getElem (hnodup : m.order.Nodup) {k : ℕ} (hk : k < m.order.length) :
    Manager.successor m.order[k] m.order
      = (m.order.eraseIdx k)[min k (m.order.length - 2)]? := by
  rw [Manager.successor, hnodup.erase_getElem k hk, hnodup.idxOf_getElem k hk,
    List.length_eraseIdx_of_lt hk]
  rfl

theorem Means.hold (h : Means m bar) (hnodup : m.order.Nodup) {place : ℕ}
    (hplace : place < bar.count) (hk : place < m.order.length) (hseveral : m.order.length ≠ 1) :
    Means (closed m.order[place] m) (bar.hold place hplace) := by
  have hlt := bar.active_lt
  rw [Bar.hold, dif_neg (h.count ▸ hseveral)]
  refine ⟨?_, ?_⟩
  · simp only [closed]
    rw [hnodup.erase_getElem place hk, List.length_eraseIdx_of_lt hk, h.count]
  · simp only [closed]
    rw [hnodup.erase_getElem place hk]
    by_cases hactive : place = bar.active
    · rw [if_pos ((h.marked hnodup hk).mpr hactive), successor_getElem hnodup hk, h.count]
      congr 1
      split <;> omega
    · rw [if_neg (mt (h.marked hnodup hk).mp hactive), ← h.active]
      rcases Nat.lt_or_gt_of_ne hactive with hbefore | hafter
      · rw [if_pos (Or.inl hbefore), List.getElem?_eraseIdx_of_ge (by omega)]
        congr 1
        omega
      · rw [if_neg (by omega), List.getElem?_eraseIdx_of_lt hafter]

end Means

/-! ## What a gesture sends -/

def actionFields (action : String) (id : Codes) : List (Codes × Json) :=
  [(codes "action", .string (codes action)), (codes "id", .string id)]

def newFields : List (Codes × Json) := [(codes "action", .string (codes "session.new"))]

/-- The object that `sendAction` gets, if what the gesture is on is there. -/
def Strip.intent (strip : Strip) : Gesture → Option (List (Codes × Json))
  | .tap place => strip.tabs[place]?.map fun tab => actionFields "session.switch" tab.id
  | .hold place => strip.tabs[place]?.map fun tab => actionFields "session.close" tab.id
  | .add => if strip.add then some newFields else none

section Calls

variable {py : Interpreter} {spawn : Geometry.Tabs.Spawn} {busy : SessionId → Bool}
  {tabs : Geometry.Tabs}

/-- A session action of the page is handled, and nothing else is done. -/
theorem calls_session (hnesting : 0 < py.limits.nesting) (h : Geometry.Tabs.Applied tabs none)
    {data : List (Codes × Json)} {action : WsControl.SessionAction}
    (hdata : ∀ field ∈ data, Json.IsText field.1 ∧
      ∃ text, field.2 = .string text ∧ Json.IsText text)
    (haction : WsControl.Action.ofJson? (get? data (codes "action")) = some (.session action))
    (hconvertible : WsControl.Convertible py data (.session action)) :
    handleClientMessage py (Host.ofTabs spawn tabs) (sendAction data)
      = (WsControl.handleSessionAction py (Host.ofTabs spawn tabs) action data).calls := by
  have hsendable : Json.Sendable (.object data) := by
    refine .object ?_ fun field hfield => ?_
    · exact fun field hfield => (hdata field hfield).1
    · obtain ⟨-, text, htext, hsmall⟩ := hdata field hfield
      exact htext ▸ .string hsmall
  have hwithin : Json.within py.limits.maxDigits py.limits.nesting (.object data) = true := by
    obtain ⟨nesting, hnesting⟩ := Nat.exists_eq_add_one.mpr hnesting
    rw [hnesting, Json.within]
    clear hsendable haction hconvertible
    induction data with
    | nil => rfl
    | cons field data ih =>
        obtain ⟨⟨-, text, htext, -⟩, hrest⟩ := List.forall_mem_cons.mp hdata
        obtain ⟨key, value⟩ := field
        obtain rfl : value = .string text := htext
        rw [Json.withinFields, ih hrest]
        rfl
  rw [WsControl.handleClientMessage_of_returns
    (WsControl.controlObject_sendAction hsendable haction)
    (WsControl.returns_ofTabs h hwithin hconvertible)]
  rfl

theorem isText_fields {action : String} (haction : Json.IsText (codes action)) (i : SessionId) :
    ∀ field ∈ actionFields action (sessionCodes i),
      Json.IsText field.1 ∧ ∃ text, field.2 = .string text ∧ Json.IsText text := by
  have haction' : Json.IsText (codes "action") := by decide
  have hid : Json.IsText (codes "id") := by decide
  exact List.forall_mem_cons.mpr ⟨⟨haction', _, rfl, haction⟩,
    List.forall_mem_singleton.mpr ⟨hid, _, rfl, isText_sessionCodes i⟩⟩

theorem calls_switch (hnesting : 0 < py.limits.nesting) (h : Geometry.Tabs.Applied tabs none)
    (i : SessionId) :
    handleClientMessage py (Host.ofTabs spawn tabs)
        (sendAction (actionFields "session.switch" (sessionCodes i)))
      = [.switch (sessionCodes i), .sendSessionsState] := by
  have htry : WsControl.trySession py (Host.ofTabs spawn tabs)
      (actionFields "session.switch" (sessionCodes i)) .switch
      = ⟨[.switch (sessionCodes i)], (Host.ofTabs spawn tabs).switch (sessionCodes i)⟩ := rfl
  have hconvertible : WsControl.Convertible py (actionFields "session.switch" (sessionCodes i))
      (.session .switch) := Exists.intro (sessionCodes i) rfl
  rw [calls_session hnesting h (isText_fields (by decide) i) rfl hconvertible,
    WsControl.handleSessionAction, htry, WsControl.switch_ofTabs h]
  rfl

theorem calls_close (hnesting : 0 < py.limits.nesting) (h : Geometry.Tabs.Applied tabs none)
    (i : SessionId) :
    handleClientMessage py (Host.ofTabs spawn tabs)
        (sendAction (actionFields "session.close" (sessionCodes i)))
      = [.close (sessionCodes i), .sendSessionsState] := by
  have htry : WsControl.trySession py (Host.ofTabs spawn tabs)
      (actionFields "session.close" (sessionCodes i)) .close
      = ⟨[.close (sessionCodes i)], (Host.ofTabs spawn tabs).close (sessionCodes i)⟩ := rfl
  have hconvertible : WsControl.Convertible py (actionFields "session.close" (sessionCodes i))
      (.session .close) := Exists.intro (sessionCodes i) rfl
  rw [calls_session hnesting h (isText_fields (by decide) i) rfl hconvertible,
    WsControl.handleSessionAction, htry, WsControl.close_ofTabs h]
  rfl

theorem calls_new (hnesting : 0 < py.limits.nesting) (h : Geometry.Tabs.Applied tabs none)
    (hroom : tabs.manager.order.length < maxSessions) :
    handleClientMessage py (Host.ofTabs spawn tabs) (sendAction newFields)
      = [.create, .switch (sessionCodes (tabs.manager.counter + 1)), .sendSessionsState] := by
  have hcreate : (Host.ofTabs spawn tabs).create
      = .returned (sessionCodes (tabs.manager.counter + 1)) := by
    rw [Host.ofTabs]
    dsimp only
    rw [create_of_room hroom]
    exact WsControl.ending_eq (h.create true spawn).raised
  have htry : WsControl.trySession py (Host.ofTabs spawn tabs) newFields .new
      = ⟨[.create, .switch (sessionCodes (tabs.manager.counter + 1))], .returned ()⟩ := by
    change WsControl.Run.bind (WsControl.Run.call .create (Host.ofTabs spawn tabs).create) _ = _
    rw [hcreate]
    change WsControl.Run.mk [.create, .switch _] ((Host.ofTabs spawn tabs).switch _) = _
    rw [WsControl.switch_ofTabs h]
  have hdata : ∀ field ∈ newFields, Json.IsText field.1 ∧
      ∃ text, field.2 = .string text ∧ Json.IsText text := by
    intro field hfield
    obtain rfl := List.mem_singleton.mp hfield
    exact ⟨by decide, _, rfl, by decide⟩
  rw [calls_session hnesting h hdata rfl trivial, WsControl.handleSessionAction, htry]
  rfl

end Calls

/-! ## What becomes of it -/

section Gestures

variable {py : Interpreter} {spawn : Geometry.Tabs.Spawn} {busy : SessionId → Bool} {s : System}
  {tabs : Geometry.Tabs} {bar : Bar} {i : SessionId}

theorem session?_of_mem (hi : i ∈ tabs.manager.order) :
    session? tabs (sessionCodes i) = some i := by
  have hfound : (session? tabs (sessionCodes i)).isSome = true :=
    List.find?_isSome.mpr ⟨i, hi, decide_eq_true rfl⟩
  obtain ⟨j, hj⟩ := Option.isSome_iff_exists.mp hfound
  have hfits := List.find?_some (p := fun j => decide (sessionCodes j = sessionCodes i)) hj
  exact sessionCodes_inj.mp (of_decide_eq_true hfits) ▸ hj

theorem session?_of_notMem (hi : i ∉ tabs.manager.order) :
    session? tabs (sessionCodes i) = none := by
  refine List.find?_eq_none.mpr fun j hj hsame => hi ?_
  exact sessionCodes_inj.mp (of_decide_eq_true hsame) ▸ hj

/-- A message that resizes nothing is handled, and the page shows what
becomes of the tabs. -/
structure Handled (py : Interpreter) (s : System) (payload : List UInt8)
    (spawn : Geometry.Tabs.Spawn) (busy : SessionId → Bool) (s' : System) : Prop where
  step : step py s (.message payload spawn busy) = some s'
  small : SmallResizes py s (.message payload spawn busy)
  shown : Shown s'

theorem handled (h : Shown s) {payload : List UInt8} {calls : List Call}
    (hcalls : callsOf py spawn s payload = calls) (hresize : ∀ cols rows, .resize cols rows ∉ calls)
    (busy : SessionId → Bool) :
    ∃ s', Handled py s payload spawn busy s' ∧
      s'.tabs = calls.foldl (afterCall spawn) s.tabs := by
  have hsmall : SmallResizes py s (.message payload spawn busy) :=
    fun cols rows hmem => absurd (hcalls ▸ hmem) (hresize cols rows)
  obtain ⟨s', hs'⟩ : ∃ s', step py s (.message payload spawn busy) = some s' := ⟨_, rfl⟩
  refine ⟨s', ⟨hs', hsmall, shown_step h hsmall hs'⟩, ?_⟩
  obtain rfl := Option.some.inj hs'
  exact (fst_serve s.tabs _).trans (hcalls ▸ rfl)

theorem manager_add (hroom : tabs.manager.order.length < maxSessions) :
    ([.create, .switch (sessionCodes (tabs.manager.counter + 1)), .sendSessionsState].foldl
      (afterCall spawn) tabs).manager = opened tabs.manager := by
  change ((tabs.create true spawn).switch (session? (tabs.create true spawn) _)).manager = _
  have hcreate := @manager_create tabs spawn hroom
  have hmem : tabs.manager.counter + 1 ∈ (tabs.create true spawn).manager.order := by
    rw [hcreate]
    exact List.mem_concat_self ..
  rw [session?_of_mem hmem, manager_switch hmem, hcreate]
  rfl

/-- The tab that stands at a place of the strip. -/
theorem getElem?_strip (m : Manager) (place : ℕ) :
    (Strip.of busy m).tabs[place]?.map Tab.id = m.order[place]?.map sessionCodes := by
  simp [Strip.of, List.getElem?_mapIdx, Function.comp_def]

/-- A gesture on a bar that the strip shows is on something that is there. -/
theorem intent_isSome (hmeans : Means s.tabs.manager bar)
    (hstrip : s.strip = Strip.of busy s.tabs.manager) (gesture : Gesture) :
    (s.strip.intent gesture).isSome = (bar.after gesture).isSome := by
  have hplace (place : ℕ) : s.strip.tabs[place]?.isSome = decide (place < bar.count) := by
    rw [hstrip, ← Option.isSome_map (f := Tab.id), getElem?_strip, Option.isSome_map,
      ← hmeans.count]
    rcases Nat.lt_or_ge place s.tabs.manager.order.length with hlt | hge
    · simp [hlt]
    · simp [hge]
  cases gesture with
  | tap place =>
      rw [Strip.intent, Option.isSome_map, hplace, Bar.after]
      split <;> simp_all
  | hold place =>
      rw [Strip.intent, Option.isSome_map, hplace, Bar.after]
      split <;> simp_all
  | add =>
      rw [Strip.intent, hstrip, Bar.after, Strip.of, hmeans.count]
      dsimp only
      split <;> simp_all

/-- What is sent for a tab names the session at its place. -/
theorem intent_place {action : String} {place : ℕ} {fields : List (Codes × Json)}
    (hstrip : s.strip = Strip.of busy s.tabs.manager)
    (hintent : s.strip.tabs[place]?.map (fun tab => actionFields action tab.id) = some fields) :
    ∃ i, s.tabs.manager.order[place]? = some i ∧ fields = actionFields action (sessionCodes i) := by
  have hmap : (s.strip.tabs[place]?.map Tab.id).map (actionFields action) = some fields := by
    rw [Option.map_map]
    exact hintent
  rw [hstrip, getElem?_strip, Option.map_map] at hmap
  obtain ⟨i, hi, hfields⟩ := Option.map_eq_some_iff.mp hmap
  exact ⟨i, hi, hfields.symm⟩

theorem handled_switch (hnesting : 0 < py.limits.nesting) (h : Shown s) (i : SessionId)
    (spawn : Geometry.Tabs.Spawn) (busy : SessionId → Bool) :
    ∃ s', Handled py s (sendAction (actionFields "session.switch" (sessionCodes i))) spawn busy s' ∧
      s'.tabs = s.tabs.switch (session? s.tabs (sessionCodes i)) :=
  handled h (calls_switch hnesting (Geometry.Tabs.applied_of_reach h.1) i)
    (fun _ _ hmem => by simp at hmem) busy

theorem handled_close (hnesting : 0 < py.limits.nesting) (h : Shown s) (i : SessionId)
    (spawn : Geometry.Tabs.Spawn) (busy : SessionId → Bool) :
    ∃ s', Handled py s (sendAction (actionFields "session.close" (sessionCodes i))) spawn busy s' ∧
      s'.tabs = afterCall spawn s.tabs (.close (sessionCodes i)) :=
  handled h (calls_close hnesting (Geometry.Tabs.applied_of_reach h.1) i)
    (fun _ _ hmem => by simp at hmem) busy

theorem close_of_session (hi : i ∈ tabs.manager.order) :
    afterCall spawn tabs (.close (sessionCodes i)) = tabs.close i spawn := by
  rw [afterCall, session?_of_mem hi]

theorem close_of_notMem (hi : i ∉ tabs.manager.order) :
    afterCall spawn tabs (.close (sessionCodes i)) = tabs := by
  rw [afterCall, session?_of_notMem hi]

/-- The bar after a tab has been closed. -/
theorem Means.close (hsound : Sound tabs.manager) (hmeans : Means tabs.manager bar) {place : ℕ}
    (hplace : place < bar.count) (hlt : place < tabs.manager.order.length) :
    Means (tabs.close tabs.manager.order[place] spawn).manager (bar.hold place hplace) := by
  have hmem := List.getElem_mem hlt
  by_cases hrest : tabs.manager.order.erase tabs.manager.order[place] = []
  · have hlast := eq_singleton_of_erase hmem hrest
    rw [manager_close_last hsound hlast]
    exact hmeans.hold_last hplace (congrArg List.length hlast)
  · rw [manager_close hsound hmem hrest]
    refine hmeans.hold hsound.nodup hplace hlt fun hone => hrest ?_
    have hlength := List.length_erase_of_mem hmem
    rw [hone] at hlength
    exact List.eq_nil_of_length_eq_zero hlength

/-- The manager after a gesture has the bar after it. -/
theorem gesture_step (hnesting : 0 < py.limits.nesting) (h : Shown s)
    (hsound : Sound s.tabs.manager) (hmeans : Means s.tabs.manager bar) {gesture : Gesture}
    {fields : List (Codes × Json)} {bar' : Bar} (hintent : s.strip.intent gesture = some fields)
    (hafter : bar.after gesture = some bar') (spawn : Geometry.Tabs.Spawn)
    (busy : SessionId → Bool) :
    ∃ s', Handled py s (sendAction fields) spawn busy s' ∧ Means s'.tabs.manager bar' := by
  obtain ⟨_, hstrip⟩ := h.2
  cases gesture with
  | tap place =>
      obtain ⟨i, hi, rfl⟩ := intent_place hstrip hintent
      obtain ⟨hplace, hbar⟩ := Option.dite_none_right_eq_some.mp hafter
      obtain ⟨hlt, rfl⟩ := List.getElem?_eq_some_iff.mp hi
      obtain ⟨s', hs', htabs⟩ := handled_switch hnesting h _ spawn busy
      refine ⟨s', hs', ?_⟩
      rw [htabs, session?_of_mem (List.getElem_mem hlt), manager_switch (List.getElem_mem hlt),
        ← Option.some.inj hbar]
      exact hmeans.tap hplace hlt
  | hold place =>
      obtain ⟨i, hi, rfl⟩ := intent_place hstrip hintent
      obtain ⟨hplace, hbar⟩ := Option.dite_none_right_eq_some.mp hafter
      obtain ⟨hlt, rfl⟩ := List.getElem?_eq_some_iff.mp hi
      obtain ⟨s', hs', htabs⟩ := handled_close hnesting h _ spawn busy
      refine ⟨s', hs', ?_⟩
      rw [htabs, close_of_session (List.getElem_mem hlt), ← Option.some.inj hbar]
      exact Means.close hsound hmeans hplace hlt
  | add =>
      obtain ⟨hroom, hbar⟩ := Option.dite_none_right_eq_some.mp hafter
      obtain rfl := Option.some.inj (Option.ite_none_right_eq_some.mp hintent).2
      have hroom' : s.tabs.manager.order.length < maxSessions := hmeans.count ▸ hroom
      obtain ⟨s', hs', htabs⟩ :=
        handled h (calls_new hnesting (Geometry.Tabs.applied_of_reach h.1) hroom')
          (fun _ _ hmem => by simp at hmem) busy
      refine ⟨s', hs', ?_⟩
      rw [htabs, manager_add hroom', ← Option.some.inj hbar]
      exact hmeans.add hroom

/-! ### Later messages -/

/-- A session that is open at one time, if it is closed later, stays so. -/
theorem gone_later {s₁ s₂ : System} (hsound : Sound s.tabs.manager)
    (hi : i ∈ s.tabs.manager.order) {ok : System → Step → Prop} (h₁ : Reach (step py) ok s s₁)
    (hclosed : i ∉ s₁.tabs.manager.order) (h₂ : Reach (step py) ok s₁ s₂) :
    i ∉ s₂.tabs.manager.order := by
  obtain ⟨hsound₁, hissued⟩ :=
    h₁.invariant (fun s => Sound s.tabs.manager ∧ i ≤ s.tabs.manager.counter)
      ⟨hsound, hsound.bounded.order i hi⟩ fun s a s' hs _ hstep =>
        have hchanges := changes_step hs.1 hstep
        ⟨hs.1.changes hchanges, hs.2.trans (counter_le hchanges)⟩
  exact (gone_of_reach hsound₁ ⟨hclosed, hissued⟩ h₂).2.1

theorem others_switch {j : SessionId} (hj : j ∈ tabs.manager.order) :
    j ∈ (tabs.switch (session? tabs (sessionCodes i))).manager.order := by
  by_cases hi : i ∈ tabs.manager.order
  · rw [session?_of_mem hi, manager_switch hi]
    exact hj
  · rw [session?_of_notMem hi]
    exact hj

theorem others_close (hsound : Sound tabs.manager) {j : SessionId} (hj : j ∈ tabs.manager.order)
    (hne : j ≠ i) : j ∈ (afterCall spawn tabs (.close (sessionCodes i))).manager.order := by
  by_cases hi : i ∈ tabs.manager.order
  · have hstays : j ∈ tabs.manager.order.erase i := (List.mem_erase_of_ne hne).mpr hj
    rw [close_of_session hi, manager_close hsound hi (List.ne_nil_of_mem hstays)]
    exact hstays
  · rw [close_of_notMem hi]
    exact hj

end Gestures

/-! ## The page and the manager -/

/-- **The strip shows the tabs of the manager**, one of them as the active
one, after any messages of any clients, as long as no resize is beyond 16
bits. -/
theorem strip_shows {py : Interpreter} {spawn : Geometry.Tabs.Spawn} {busy : SessionId → Bool}
    {s : System} (h : Reach (step py) (SmallResizes py) (start spawn busy) s) :
    ∃ bar, Shows s.strip bar ∧ Means s.tabs.manager bar ∧
      s.strip.tabs.map Tab.id = s.tabs.manager.order.map sessionCodes := by
  obtain ⟨-, busy', hstrip⟩ := shown_of_reach h
  have hsound := sound_of_reach h
  obtain ⟨bar, hmeans⟩ := hsound.means
  refine ⟨bar, hstrip ▸ hmeans.shows hsound.nodup, hmeans, ?_⟩
  rw [hstrip]
  refine List.ext_getElem (by simp [Strip.of]) fun k _ _ => ?_
  simp [Strip.of]

def fresh : System := start .alive fun _ => false

/-- A run with a message of the page opens a second tab. -/
theorem reach_second :
    ∃ s, Reach (step WsControl.cpython) (SmallResizes WsControl.cpython) fresh s ∧
      s.tabs.manager = ⟨[1, 2], some 2, 2⟩ := by
  have hstart : Shown fresh := shown_start ..
  have hroom : fresh.tabs.manager.order.length < maxSessions := by decide
  obtain ⟨s, hs, htabs⟩ := @handled WsControl.cpython .alive _ hstart _ _
    (calls_new (Nat.zero_lt_succ _) (Geometry.Tabs.applied_of_reach hstart.1) hroom)
    (fun _ _ hmem => by simp at hmem) fun _ => true
  refine ⟨s, Reach.start.next hs.small hs.step, ?_⟩
  rw [htabs, manager_add hroom]
  rfl

/-- The strip of two tabs. -/
theorem strip_shows_second : ∃ s : System, s.tabs.manager = ⟨[1, 2], some 2, 2⟩ ∧
    ∃ bar, Shows s.strip bar ∧ Means s.tabs.manager bar ∧
      s.strip.tabs.map Tab.id = s.tabs.manager.order.map sessionCodes := by
  obtain ⟨s, hreach, hmanager⟩ := reach_second
  exact ⟨s, hmanager, strip_shows hreach⟩

/-- **Gestures mean what they show.** In every state reached, what can be
touched is what the bar has, and the message of a gesture makes of the
manager, and of the strip that comes back, what the gesture makes of the
bar. -/
theorem gesture_meant {py : Interpreter} (hnesting : 0 < py.limits.nesting)
    {spawn : Geometry.Tabs.Spawn} {busy : SessionId → Bool} {s : System}
    (h : Reach (step py) (SmallResizes py) (start spawn busy) s) {bar : Bar}
    (hbar : Shows s.strip bar) (gesture : Gesture) :
    (s.strip.intent gesture).isSome = (bar.after gesture).isSome ∧
      ∀ fields bar', s.strip.intent gesture = some fields → bar.after gesture = some bar' →
        ∀ spawn' busy', ∃ s', step py s (.message (sendAction fields) spawn' busy') = some s' ∧
          Reach (step py) (SmallResizes py) (start spawn busy) s' ∧
          Shows s'.strip bar' ∧ Means s'.tabs.manager bar' := by
  have hshown := shown_of_reach h
  have hsound := sound_of_reach h
  obtain ⟨busy', hstrip⟩ := hshown.2
  obtain ⟨bar₀, hmeans⟩ := hsound.means
  have hbar₀ : Shows s.strip bar₀ := hstrip ▸ hmeans.shows hsound.nodup
  obtain rfl := hbar.unique hbar₀
  refine ⟨intent_isSome hmeans hstrip gesture, fun fields bar' hintent hafter spawn' busy' => ?_⟩
  obtain ⟨s', hs', hmeans'⟩ :=
    gesture_step hnesting hshown hsound hmeans hintent hafter spawn' busy'
  have hreach := h.next hs'.small hs'.step
  obtain ⟨-, _, hstrip'⟩ := hs'.shown
  exact ⟨s', hs'.step, hreach, hstrip' ▸ hmeans'.shows (sound_of_reach hreach).nodup, hmeans'⟩

def twoTabs : Bar := ⟨2, 1, by decide, by decide⟩

/-- The state with two tabs, whose strip shows them. -/
theorem shows_second : ∃ s : System,
    Reach (step WsControl.cpython) (SmallResizes WsControl.cpython) fresh s ∧
      s.tabs.manager = ⟨[1, 2], some 2, 2⟩ ∧ Shows s.strip twoTabs := by
  obtain ⟨s, hreach, hmanager⟩ := reach_second
  obtain ⟨-, _, hstrip⟩ := shown_of_reach hreach
  have hmeans : Means s.tabs.manager twoTabs := by
    rw [hmanager]
    exact ⟨rfl, rfl⟩
  exact ⟨s, hreach, hmanager, hstrip ▸ hmeans.shows (sound_of_reach hreach).nodup⟩

/-- A hold on the tab on screen leaves the other one there. -/
theorem gesture_meant_hold : ∃ (s' : System) (bar' : Bar), Shows s'.strip bar' ∧
    Means s'.tabs.manager bar' ∧ bar'.count = 1 ∧ bar'.active = 0 := by
  obtain ⟨s, hreach, -, hbar⟩ := shows_second
  obtain ⟨hsome, hmeant⟩ := gesture_meant (Nat.zero_lt_succ _) hreach hbar (.hold 1)
  obtain ⟨fields, hfields⟩ := Option.isSome_iff_exists.mp (hsome.trans rfl)
  obtain ⟨s', -, -, hbar', hmeans'⟩ := hmeant fields _ hfields rfl .alive fun _ => false
  exact ⟨s', _, hbar', hmeans', rfl, rfl⟩

/-- **A late gesture is safe.** The message of a tap or a hold may be
handled after any others. It never closes another tab than the one that
was touched, and if that one has been closed it does nothing. -/
theorem late_gesture {py : Interpreter} (hnesting : 0 < py.limits.nesting)
    {spawn : Geometry.Tabs.Spawn} {busy : SessionId → Bool} {s s₁ s₂ : System}
    (h : Reach (step py) (SmallResizes py) (start spawn busy) s) {place : ℕ} {i : SessionId}
    (hplace : s.tabs.manager.order[place]? = some i) {gesture : Gesture}
    (hgesture : gesture = .tap place ∨ gesture = .hold place) {fields : List (Codes × Json)}
    (hintent : s.strip.intent gesture = some fields)
    (h₁ : Reach (step py) (SmallResizes py) s s₁) (h₂ : Reach (step py) (SmallResizes py) s₁ s₂)
    (spawn' : Geometry.Tabs.Spawn) (busy' : SessionId → Bool) :
    ∃ s', step py s₂ (.message (sendAction fields) spawn' busy') = some s' ∧
      (∀ j ∈ s₂.tabs.manager.order, j ≠ i → j ∈ s'.tabs.manager.order) ∧
      (i ∉ s₁.tabs.manager.order → s'.tabs = s₂.tabs) := by
  have hsound := sound_of_reach h
  have hi : i ∈ s.tabs.manager.order := List.mem_of_getElem? hplace
  have hreach := (h.trans h₁).trans h₂
  have hshown₂ := shown_of_reach hreach
  obtain ⟨-, busy₀, hstrip⟩ := shown_of_reach h
  have hgone (hclosed : i ∉ s₁.tabs.manager.order) : i ∉ s₂.tabs.manager.order :=
    gone_later hsound hi h₁ hclosed h₂
  rcases hgesture with rfl | rfl
  · obtain ⟨j, hj, rfl⟩ := intent_place hstrip hintent
    obtain rfl := Option.some.inj (hj.symm.trans hplace)
    obtain ⟨s', hs', htabs⟩ := handled_switch hnesting hshown₂ j spawn' busy'
    refine ⟨s', hs'.step, fun k hk _ => htabs ▸ others_switch hk, fun hclosed => ?_⟩
    rw [htabs, session?_of_notMem (hgone hclosed)]
    rfl
  · obtain ⟨j, hj, rfl⟩ := intent_place hstrip hintent
    obtain rfl := Option.some.inj (hj.symm.trans hplace)
    obtain ⟨s', hs', htabs⟩ := handled_close hnesting hshown₂ j spawn' busy'
    refine ⟨s', hs'.step, fun k hk hne => ?_, fun hclosed => ?_⟩
    · exact htabs ▸ others_close (sound_of_reach hreach) hk hne
    · rw [htabs, close_of_notMem (hgone hclosed)]

/-- Two pages hold the same tab, the first of two: the second message does
nothing. -/
theorem late_gesture_twice : ∃ s₂ s' : System, s₂.tabs.manager = ⟨[2], some 2, 2⟩ ∧
    s'.tabs = s₂.tabs := by
  obtain ⟨s, hreach, hmanager, hbar⟩ := shows_second
  have hshown := shown_of_reach hreach
  obtain ⟨_, hstrip⟩ := hshown.2
  have hfirst : s.tabs.manager.order[0]? = some 1 := hmanager ▸ rfl
  have hintent : s.strip.intent (.hold 0)
      = some (actionFields "session.close" (sessionCodes 1)) := by
    rw [hstrip, Strip.intent, Strip.of, hmanager]
    rfl
  obtain ⟨s₁, hs₁, htabs⟩ :=
    @handled_close WsControl.cpython s (Nat.zero_lt_succ _) hshown 1 .alive fun _ => false
  have hclosed : s₁.tabs.manager = ⟨[2], some 2, 2⟩ := by
    have hmem : 1 ∈ s.tabs.manager.order := hmanager ▸ by decide
    have hrest : s.tabs.manager.order.erase 1 ≠ [] := hmanager ▸ by decide
    rw [htabs, close_of_session hmem, manager_close (sound_of_reach hreach) hmem hrest, hmanager]
    rfl
  obtain ⟨s', -, -, hnothing⟩ := late_gesture (Nat.zero_lt_succ _) hreach hfirst (Or.inr rfl)
    hintent (Reach.start.next hs₁.small hs₁.step) .start .alive fun _ => false
  exact ⟨s₁, s', hclosed, hnothing (hclosed ▸ by decide)⟩

end TabStrip

end Zmux
