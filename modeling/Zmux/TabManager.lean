import Mathlib.Data.List.Basic
import Zmux.Runs

/-!
# The session manager

The fields of `SessionManager` in `sessions.py` that decide which tab is
on screen, and what its lock-protected blocks do to them: the block of
`create`, the one of `switch` and the one of `close`. `_sessions` and
`_order` are changed together in all of them, so one list stands for
both. Ids are the counter values whose decimal strings the source uses.

The blocks are shared by the sequential and the concurrent models.
-/

namespace Zmux

abbrev SessionId := Nat

/-- `SessionManager.MAX_SESSIONS`. -/
def maxSessions : Nat := 8

structure Manager where
  order : List SessionId
  active : Option SessionId
  counter : Nat
deriving DecidableEq

namespace Manager

/-- The manager `get_manager` makes, after its `create`. -/
def initial : Manager where
  order := [1]
  active := some 1
  counter := 1

/-- The locked block of `create`: the new id, or `none` when the cap is
hit and `ValueError` is raised. -/
def create (activate : Bool) (m : Manager) : Option (SessionId × Manager) :=
  if maxSessions ≤ m.order.length then none
  else
    let sessionId := m.counter + 1
    some (sessionId, {
      order := m.order ++ [sessionId]
      active := if activate || m.active.isNone then some sessionId else m.active
      counter := sessionId })

/-- The locked block of `switch`: the session to repaint, if it goes on. -/
def switch (target : Option SessionId) (m : Manager) : Option SessionId × Manager :=
  match target with
  | none => (none, m)
  | some sessionId =>
    if sessionId ∉ m.order ∨ m.active = some sessionId then (none, m)
    else (some sessionId, { m with active := some sessionId })

/-- The neighbour that takes over: the one to the right, else the last. -/
def successor (sessionId : SessionId) (order : List SessionId) : Option SessionId :=
  let rest := order.erase sessionId
  rest[min (order.idxOf sessionId) (rest.length - 1)]?

/-- The locked block of `close`: whether the session was active, or
`none` when it is unknown. -/
def close (sessionId : SessionId) (m : Manager) : Option (Bool × Manager) :=
  if sessionId ∉ m.order then none
  else
    let wasActive := m.active = some sessionId
    some (wasActive, { m with
      order := m.order.erase sessionId
      active := if wasActive then successor sessionId m.order else m.active })

/-! ## What the blocks do -/

theorem create_eq {activate : Bool} {m m' : Manager} {sessionId : SessionId}
    (h : m.create activate = some (sessionId, m')) :
    sessionId = m.counter + 1 ∧ m'.order = m.order ++ [sessionId] ∧ m'.counter = sessionId
      ∧ m'.active = (if activate || m.active.isNone then some sessionId else m.active) := by
  unfold create at h
  split at h
  · cases h
  · obtain ⟨rfl, rfl⟩ := Prod.mk.injEq .. |>.mp (Option.some.inj h)
    exact ⟨rfl, rfl, rfl, rfl⟩

theorem create_isSome_of_nil (activate : Bool) {m : Manager} (h : m.order = []) :
    (m.create activate).isSome = true := by
  unfold create
  rw [h, if_neg (by decide)]
  rfl

/-- `switch` changes the active session to an existing one, or nothing. -/
theorem switch_cases (target : Option SessionId) (m : Manager) :
    ((m.switch target) = (none, m)
        ∧ ∀ sessionId, target = some sessionId → sessionId ∈ m.order →
          m.active = some sessionId)
    ∨ ∃ sessionId, target = some sessionId ∧ sessionId ∈ m.order
        ∧ m.active ≠ some sessionId
        ∧ m.switch target = (some sessionId, { m with active := some sessionId }) := by
  cases target with
  | none => exact Or.inl ⟨rfl, nofun⟩
  | some sessionId =>
      by_cases h : sessionId ∉ m.order ∨ m.active = some sessionId
      · refine Or.inl ⟨if_pos h, fun i hi hmem => ?_⟩
        obtain rfl := Option.some.inj hi
        exact h.resolve_left (not_not_intro hmem)
      · have h' := not_or.mp h
        exact Or.inr ⟨sessionId, rfl, not_not.mp h'.1, h'.2, if_neg h⟩

/-- There is a successor as long as a session remains. -/
theorem successor_cases (sessionId : SessionId) (order : List SessionId) :
    (order.erase sessionId = [] ∧ successor sessionId order = none)
      ∨ ∃ next ∈ order.erase sessionId, successor sessionId order = some next := by
  unfold successor
  cases hrest : order.erase sessionId with
  | nil => exact Or.inl ⟨rfl, rfl⟩
  | cons first rest =>
      have hlt : min (order.idxOf sessionId) ((first :: rest).length - 1)
          < (first :: rest).length := by
        rw [List.length_cons]
        omega
      exact Or.inr ⟨_, List.getElem_mem hlt, List.getElem?_eq_getElem hlt⟩

theorem close_eq {sessionId : SessionId} {m m' : Manager} {wasActive : Bool}
    (h : m.close sessionId = some (wasActive, m')) :
    sessionId ∈ m.order ∧ wasActive = decide (m.active = some sessionId)
      ∧ m'.order = m.order.erase sessionId ∧ m'.counter = m.counter
      ∧ m'.active = (if m.active = some sessionId then successor sessionId m.order
          else m.active) := by
  unfold close at h
  split at h
  · cases h
  · rename_i hmem
    obtain ⟨rfl, rfl⟩ := Prod.mk.injEq .. |>.mp (Option.some.inj h)
    refine ⟨not_not.mp hmem, rfl, rfl, rfl, ?_⟩
    simp

/-- No id is above the counter, so a new one is none of them. -/
structure Bounded (m : Manager) : Prop where
  order : ∀ i ∈ m.order, i ≤ m.counter
  active : ∀ i, m.active = some i → i ≤ m.counter

theorem Bounded.create {activate : Bool} {m m' : Manager} {sessionId : SessionId}
    (h : m.Bounded) (hcreate : m.create activate = some (sessionId, m')) : m'.Bounded := by
  obtain ⟨hid, horder, hcounter, hactive⟩ := create_eq hcreate
  have hle : m.counter ≤ m'.counter := by
    rw [hcounter, hid]
    exact Nat.le_succ _
  constructor
  · intro i hi
    rw [horder] at hi
    rcases List.mem_append.mp hi with hi | hi
    · exact Nat.le_trans (h.order i hi) hle
    · exact Nat.le_of_eq ((List.mem_singleton.mp hi).trans hcounter.symm)
  · intro i hi
    rw [hactive] at hi
    split at hi
    · exact Option.some.inj hi ▸ Nat.le_of_eq hcounter.symm
    · exact Nat.le_trans (h.active i hi) hle

theorem Bounded.activate {m : Manager} (h : m.Bounded) {sessionId : SessionId}
    (hmem : sessionId ∈ m.order) : Bounded { m with active := some sessionId } where
  order := h.order
  active _ hi := Option.some.inj hi ▸ h.order sessionId hmem

theorem Bounded.close {sessionId : SessionId} {m m' : Manager} {wasActive : Bool}
    (h : m.Bounded) (hclose : m.close sessionId = some (wasActive, m')) : m'.Bounded := by
  obtain ⟨-, -, horder, hcounter, hactive⟩ := close_eq hclose
  have hrest : ∀ i ∈ m.order.erase sessionId, i ≤ m'.counter := by
    intro i hi
    rw [hcounter]
    exact h.order i (List.mem_of_mem_erase hi)
  constructor
  · rw [horder]
    exact hrest
  · intro i hi
    rw [hactive] at hi
    split at hi
    · rcases successor_cases sessionId m.order with ⟨-, hnone⟩ | ⟨next, hnext, hsome⟩
      · rw [hnone] at hi
        cases hi
      · rw [hsome] at hi
        exact Option.some.inj hi ▸ hrest next hnext
    · rw [hcounter]
      exact h.active i hi

end Manager

end Zmux
