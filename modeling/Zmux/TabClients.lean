import Mathlib.Data.Fintype.Basic
import Mathlib.Logic.Function.Basic
import Zmux.TabManager

/-!
# Concurrent clients of the session manager

Every client of the websocket server has its own thread, and a thread runs
the requests `session.new`, `session.switch` and `session.close` of
`_handle_session_action`. A step is one lock-protected block, or one of
the accesses to `_active` that `close` makes after it has released the
lock: the check for `None`, the read of the successor, the write of
`None` that forces the repaint. `stop_all` may come at any time.

`close` relies on `_active` and the sessions staying what it found. The
condition `Alone` says when they do: no other client sees the `None` it
has written, none removes the session it is going to repaint, and none
creates a session while it is about to create one.
-/

namespace Zmux

/-- Where a client thread is in the request it handles. -/
inductive Pc where
  | idle
  | create
  | switch (target : Option SessionId)
  | close (sessionId : SessionId)
  /-- `if self._active is None` in `close`, behind the lock. -/
  | check (wasActive : Bool)
  | recreate
  /-- `active = self._active`. -/
  | read
  /-- `self._active = None`. -/
  | clear (target : Option SessionId)
  | repaint (target : Option SessionId)
deriving DecidableEq

/-- The session a close is about to repaint. -/
def Pc.target : Pc → Option SessionId
  | .clear target => target
  | .repaint target => target
  | _ => none

inductive Request where
  | new
  | switch (sessionId : SessionId)
  | close (sessionId : SessionId)
deriving DecidableEq

def Request.entry : Request → Pc
  | .new => .create
  | .switch sessionId => .switch (some sessionId)
  | .close sessionId => .close sessionId

/-- `stopped` and `freshOver` are ghosts: whether `stop_all` was called,
and the sessions there were each time `close` created a fresh one. -/
structure Clients (Thread : Type*) where
  manager : Manager
  pc : Thread → Pc
  stopped : Bool
  freshOver : List (List SessionId)

inductive ClientStep (Thread : Type*) where
  | begin (t : Thread) (request : Request)
  | go (t : Thread)
  | stopAll

section Clients

variable {Thread : Type*} [DecidableEq Thread]

namespace Clients

def start : Clients Thread where
  manager := .initial
  pc _ := .idle
  stopped := false
  freshOver := []

def goto (s : Clients Thread) (t : Thread) (pc : Pc) (manager : Manager) : Clients Thread :=
  { s with pc := Function.update s.pc t pc, manager := manager }

@[simp] theorem goto_pc_self (s : Clients Thread) (t : Thread) (pc : Pc) (m : Manager) :
    (s.goto t pc m).pc t = pc := Function.update_self ..

theorem goto_pc_ne (s : Clients Thread) {t t' : Thread} (pc : Pc) (m : Manager) (h : t' ≠ t) :
    (s.goto t pc m).pc t' = s.pc t' := Function.update_of_ne h ..

@[simp] theorem goto_manager (s : Clients Thread) (t : Thread) (pc : Pc) (m : Manager) :
    (s.goto t pc m).manager = m := rfl

/-- The next step of the thread `t`. -/
def go (s : Clients Thread) (t : Thread) : Option (Clients Thread) :=
  match s.pc t with
  | .idle => none
  | .create =>
    match s.manager.create true with
    | none => some (s.goto t .idle s.manager)
    | some (sessionId, m) => some (s.goto t (.switch (some sessionId)) m)
  | .switch target => some (s.goto t .idle (s.manager.switch target).2)
  | .close sessionId =>
    match s.manager.close sessionId with
    | none => some (s.goto t .idle s.manager)
    | some (wasActive, m) => some (s.goto t (.check wasActive) m)
  | .check wasActive =>
    if s.manager.active.isNone then some (s.goto t .recreate s.manager)
    else if wasActive then some (s.goto t .read s.manager)
    else some (s.goto t .idle s.manager)
  | .recreate =>
    match s.manager.create true with
    | none => some (s.goto t .idle s.manager)
    | some (_, m) =>
      some { s.goto t .idle m with freshOver := s.freshOver ++ [s.manager.order] }
  | .read => some (s.goto t (.clear s.manager.active) s.manager)
  | .clear target => some (s.goto t (.repaint target) { s.manager with active := none })
  | .repaint target => some (s.goto t .idle (s.manager.switch target).2)

def step (s : Clients Thread) : ClientStep Thread → Option (Clients Thread)
  | .begin t request =>
    if s.pc t = .idle then some (s.goto t request.entry s.manager) else none
  | .go t => s.go t
  | .stopAll => some { s with
      manager := { s.manager with order := [], active := none }
      stopped := true }

/-- A step of the thread `t` at `pc` finds the manager as a close by another
client left it:

- a session is created only while no other client is about to replace the
  last one;
- a session is closed only while no client is about to repaint it;
- a close that finds no active session has closed the last one;
- a close that reads the successor finds one. -/
def Undisturbed (s : Clients Thread) (t : Thread) : Pc → Prop
  | .create => ∀ t', t' ≠ t → s.pc t' ≠ .recreate
  | .recreate => ∀ t', t' ≠ t → s.pc t' ≠ .recreate
  | .close sessionId => ∀ t', (s.pc t').target ≠ some sessionId
  | .check _ => s.manager.active = none → s.manager.order = []
  | .read => s.manager.active ≠ none
  | _ => True

/-- And all sessions are stopped only while no client repaints one. -/
def Alone (s : Clients Thread) : ClientStep Thread → Prop
  | .begin _ _ => True
  | .go t => Undisturbed s t (s.pc t)
  | .stopAll => ∀ t', (s.pc t').target = none

instance [Fintype Thread] (s : Clients Thread) (t : Thread) (pc : Pc) :
    Decidable (Undisturbed s t pc) :=
  match pc with
  | .create => inferInstanceAs (Decidable (∀ t', t' ≠ t → s.pc t' ≠ .recreate))
  | .recreate => inferInstanceAs (Decidable (∀ t', t' ≠ t → s.pc t' ≠ .recreate))
  | .close sessionId => inferInstanceAs (Decidable (∀ t', (s.pc t').target ≠ some sessionId))
  | .check _ => inferInstanceAs (Decidable (s.manager.active = none → s.manager.order = []))
  | .read => inferInstanceAs (Decidable (s.manager.active ≠ none))
  | .idle | .switch _ | .clear _ | .repaint _ => instDecidableTrue

instance [Fintype Thread] (s : Clients Thread) (a : ClientStep Thread) :
    Decidable (Alone s a) :=
  match a with
  | .begin _ _ => instDecidableTrue
  | .go t => inferInstanceAs (Decidable (Undisturbed s t (s.pc t)))
  | .stopAll => inferInstanceAs (Decidable (∀ t', (s.pc t').target = none))

/-! ## The invariant -/

structure Safe (s : Clients Thread) : Prop where
  active : ∀ i, s.manager.active = some i → i ∈ s.manager.order
  /-- `_active` is `None` with sessions left only ahead of a repaint. -/
  hidden : s.manager.active = none → s.manager.order = [] ∨ ∃ t target, s.pc t = .repaint target
  target : ∀ t target, s.pc t = .clear target ∨ s.pc t = .repaint target →
    ∃ i ∈ s.manager.order, target = some i
  /-- Whoever closed the last session is about to create a fresh one. -/
  empty : s.manager.order = [] →
    s.stopped = true ∨ ∃ t, (∃ wasActive, s.pc t = .check wasActive) ∨ s.pc t = .recreate
  recreate : ∀ t, s.pc t = .recreate → s.manager.order = []
  fresh : ∀ order ∈ s.freshOver, order = []

variable {s s' : Clients Thread}

/-! ## Steps that leave a session shown, and steps that change nothing -/

/-- Where a step does not lead, a thread was before. -/
theorem pc_of_goto {t t' : Thread} {pc pc' : Pc} {m : Manager}
    (h : (s.goto t pc m).pc t' = pc') (hpc : pc ≠ pc') : s.pc t' = pc' := by
  have htt : t' ≠ t := by
    rintro rfl
    exact hpc ((goto_pc_self ..).symm.trans h)
  exact (goto_pc_ne s pc m htt).symm.trans h

theorem target_of_goto {t t' : Thread} {pc : Pc} {m : Manager} {target : Option SessionId}
    (h : (s.goto t pc m).pc t' = .clear target ∨ (s.goto t pc m).pc t' = .repaint target)
    (hclear : pc ≠ .clear target) (hrepaint : pc ≠ .repaint target) :
    s.pc t' = .clear target ∨ s.pc t' = .repaint target :=
  h.imp (pc_of_goto · hclear) (pc_of_goto · hrepaint)

/-- Where a step does not start, a thread stays. -/
theorem pc_goto_of_pc {t t' : Thread} {pc' : Pc} (hpc : s.pc t ≠ pc') (pc : Pc) (m : Manager)
    (h : s.pc t' = pc') : (s.goto t pc m).pc t' = pc' := by
  have htt : t' ≠ t := by
    rintro rfl
    exact hpc h
  exact (goto_pc_ne s pc m htt).trans h

omit [DecidableEq Thread] in
theorem Safe.not_recreate (h : Safe s) {i : SessionId} (hi : i ∈ s.manager.order) (t : Thread) :
    s.pc t ≠ .recreate := by
  intro ht
  rw [h.recreate t ht] at hi
  exact List.not_mem_nil hi

/-- A step of `t` after which an existing session is active. -/
theorem Safe.shown (h : Safe s) {t : Thread} {pc : Pc} {m : Manager} {i : SessionId}
    (hactive : m.active = some i) (hi : i ∈ m.order)
    (hkept : ∀ j ∈ s.manager.order, j ∈ m.order)
    (htarget : ∀ target, pc = .clear target ∨ pc = .repaint target →
      ∃ j ∈ m.order, target = some j)
    (hpc : pc ≠ .recreate) (hothers : ∀ t', t' ≠ t → s.pc t' ≠ .recreate) :
    Safe (s.goto t pc m) where
  active j hj := by
    rw [goto_manager, hactive] at hj
    exact Option.some.inj hj ▸ hi
  hidden hnone := by
    rw [goto_manager, hactive] at hnone
    cases hnone
  target t' target ht' := by
    by_cases htt : t' = t
    · subst htt
      rw [goto_pc_self] at ht'
      exact htarget target ht'
    · rw [goto_pc_ne s pc m htt] at ht'
      obtain ⟨j, hj, hjt⟩ := h.target t' target ht'
      exact ⟨j, hkept j hj, hjt⟩
  empty hempty := by
    rw [goto_manager] at hempty
    rw [hempty] at hi
    exact (List.not_mem_nil hi).elim
  recreate t' ht' := by
    by_cases htt : t' = t
    · subst htt
      rw [goto_pc_self] at ht'
      exact absurd ht' hpc
    · rw [goto_pc_ne s pc m htt] at ht'
      exact absurd ht' (hothers t' htt)
  fresh := h.fresh

/-- The thread is ahead of a locked block, or has no request. -/
def Outside : Pc → Prop
  | .idle | .create | .switch _ | .close _ => True
  | _ => False

/-- A step of `t` from one such place to another that changes nothing. -/
theorem Safe.passes (h : Safe s) {t : Thread} {pc : Pc} (hold : Outside (s.pc t))
    (hnew : Outside pc) : Safe (s.goto t pc s.manager) := by
  have hleave {pc' : Pc} (hin : ¬ Outside pc') : s.pc t ≠ pc' := by
    rintro rfl
    exact hin hold
  have hreach {pc' : Pc} (hin : ¬ Outside pc') : pc ≠ pc' := by
    rintro rfl
    exact hin hnew
  refine ⟨h.active, fun hnone => ?_, fun t' target ht' => ?_, fun hempty => ?_, fun t' ht' => ?_,
    h.fresh⟩
  · refine (h.hidden hnone).imp_right ?_
    rintro ⟨t', target, ht'⟩
    exact ⟨t', target, pc_goto_of_pc (hleave id) _ _ ht'⟩
  · exact h.target t' target (target_of_goto ht' (hreach id) (hreach id))
  · refine (h.empty hempty).imp_right ?_
    rintro ⟨t', ⟨wasActive, ht'⟩ | ht'⟩
    · exact ⟨t', Or.inl ⟨wasActive, pc_goto_of_pc (hleave id) _ _ ht'⟩⟩
    · exact ⟨t', Or.inr (pc_goto_of_pc (hleave id) _ _ ht')⟩
  · exact h.recreate t' (pc_of_goto ht' (hreach id))

/-! ## One lemma for each block -/

theorem safe_create (h : Safe s) {t : Thread} (hpc : s.pc t = .create)
    (hok : ∀ t', t' ≠ t → s.pc t' ≠ .recreate) (hs : s.go t = some s') : Safe s' := by
  rw [go, hpc] at hs
  dsimp only at hs
  split at hs
  · obtain rfl := Option.some.inj hs
    exact h.passes (by rw [hpc]; trivial) trivial
  · rename_i sessionId m hcreate
    obtain rfl := Option.some.inj hs
    obtain ⟨-, horder, -, hactive⟩ := Manager.create_eq hcreate
    refine h.shown hactive (by simp [horder]) (fun j hj => by simp [horder, hj]) ?_ nofun hok
    rintro target (hclear | hrepaint)
    · cases hclear
    · cases hrepaint

/-- A switch, or the repaint of a close, whose target exists if it is one. -/
theorem safe_switch (h : Safe s) {t : Thread} {target : Option SessionId}
    (hpc : Outside (s.pc t) ∨ ∃ i ∈ s.manager.order, target = some i) :
    Safe (s.goto t .idle (s.manager.switch target).2) := by
  rcases Manager.switch_cases target s.manager with
    ⟨hsame, hactive⟩ | ⟨i, rfl, hi, hactive, hswitch⟩
  · rw [hsame]
    rcases hpc with hpc | ⟨i, hi, rfl⟩
    · exact h.passes hpc trivial
    · exact h.shown (hactive i rfl hi) hi (fun _ hj => hj) (by simp) nofun
        fun t' _ => h.not_recreate hi t'
  · rw [hswitch]
    exact h.shown rfl hi (fun _ hj => hj) (by simp) nofun fun t' _ => h.not_recreate hi t'

theorem safe_close (h : Safe s) {t : Thread} {sessionId : SessionId}
    (hpc : s.pc t = .close sessionId) (hok : ∀ t', (s.pc t').target ≠ some sessionId)
    (hs : s.go t = some s') : Safe s' := by
  rw [go, hpc] at hs
  dsimp only at hs
  split at hs
  · obtain rfl := Option.some.inj hs
    exact h.passes (by rw [hpc]; trivial) trivial
  · rename_i wasActive m hclose
    obtain rfl := Option.some.inj hs
    obtain ⟨hmem, -, horder, -, hactive⟩ := Manager.close_eq hclose
    constructor
    · intro i hi
      rw [goto_manager, hactive] at hi
      rw [goto_manager, horder]
      split at hi
      · rcases Manager.successor_cases sessionId s.manager.order with ⟨-, hnone⟩ | ⟨j, hj, hsome⟩
        · rw [hnone] at hi
          cases hi
        · rw [hsome] at hi
          exact Option.some.inj hi ▸ hj
      · rename_i hne
        refine (List.mem_erase_of_ne ?_).mpr (h.active i hi)
        rintro rfl
        exact hne hi
    · intro hnone
      rw [goto_manager, hactive] at hnone
      rw [goto_manager, horder]
      split at hnone
      · rcases Manager.successor_cases sessionId s.manager.order with ⟨hrest, -⟩ | ⟨j, -, hsome⟩
        · exact Or.inl hrest
        · rw [hsome] at hnone
          cases hnone
      · refine Or.inr ?_
        rcases h.hidden hnone with hempty | ⟨t', target, ht'⟩
        · rw [hempty] at hmem
          exact (List.not_mem_nil hmem).elim
        · exact ⟨t', target, pc_goto_of_pc (by rw [hpc]; nofun) _ _ ht'⟩
    · intro t' target ht'
      replace ht' := target_of_goto ht' nofun nofun
      obtain ⟨i, hi, rfl⟩ := h.target t' target ht'
      refine ⟨i, ?_, rfl⟩
      rw [goto_manager, horder]
      refine (List.mem_erase_of_ne ?_).mpr hi
      rintro rfl
      refine hok t' ?_
      rcases ht' with ht' | ht'
      · rw [ht']; rfl
      · rw [ht']; rfl
    · intro _
      exact Or.inr ⟨t, Or.inl ⟨wasActive, goto_pc_self ..⟩⟩
    · exact fun t' ht' => absurd (pc_of_goto ht' nofun) (h.not_recreate hmem t')
    · exact h.fresh

theorem safe_check (h : Safe s) {t : Thread} {wasActive : Bool}
    (hpc : s.pc t = .check wasActive)
    (hok : s.manager.active = none → s.manager.order = []) (hs : s.go t = some s') :
    Safe s' := by
  rw [go, hpc] at hs
  dsimp only at hs
  cases hactive : s.manager.active with
  | none =>
      rw [hactive, Option.isNone_none, if_pos rfl] at hs
      obtain rfl := Option.some.inj hs
      have hempty := hok hactive
      constructor
      · exact h.active
      · exact fun _ => Or.inl hempty
      · exact fun t' target ht' =>
          h.target t' target (target_of_goto ht' nofun nofun)
      · exact fun _ => Or.inr ⟨t, Or.inr (goto_pc_self ..)⟩
      · exact fun _ _ => hempty
      · exact h.fresh
  | some i =>
      have hi := h.active i hactive
      have hthere : ∀ pc : Pc, pc = .read ∨ pc = .idle → Safe (s.goto t pc s.manager) := by
        intro pc hnew
        refine h.shown hactive hi (fun _ hj => hj) ?_ ?_ fun t' _ => h.not_recreate hi t'
        · rcases hnew with rfl | rfl
          · simp
          · simp
        · rcases hnew with rfl | rfl
          · nofun
          · nofun
      rw [hactive, Option.isNone_some, if_neg (by simp)] at hs
      split at hs
      · obtain rfl := Option.some.inj hs
        exact hthere _ (Or.inl rfl)
      · obtain rfl := Option.some.inj hs
        exact hthere _ (Or.inr rfl)

theorem safe_recreate (h : Safe s) {t : Thread} (hpc : s.pc t = .recreate)
    (hok : ∀ t', t' ≠ t → s.pc t' ≠ .recreate) (hs : s.go t = some s') : Safe s' := by
  have hempty := h.recreate t hpc
  rw [go, hpc] at hs
  dsimp only at hs
  split at hs
  · rename_i hnone
    have hsome := Manager.create_isSome_of_nil true hempty
    rw [hnone] at hsome
    cases hsome
  · rename_i sessionId m hcreate
    obtain rfl := Option.some.inj hs
    obtain ⟨-, horder, -, hactive⟩ := Manager.create_eq hcreate
    have hsafe : Safe (s.goto t .idle m) :=
      h.shown hactive (by simp [horder]) (fun j hj => by simp [horder, hj]) (by simp) nofun hok
    refine { hsafe with fresh := fun order horder' => ?_ }
    rcases List.mem_append.mp horder' with hold | hnew
    · exact h.fresh order hold
    · rw [List.mem_singleton.mp hnew, hempty]

theorem safe_read (h : Safe s) {t : Thread} (hok : s.manager.active ≠ none) :
    Safe (s.goto t (.clear s.manager.active) s.manager) := by
  obtain ⟨i, hactive⟩ := Option.ne_none_iff_exists'.mp hok
  have hi := h.active i hactive
  refine h.shown hactive hi (fun _ hj => hj) ?_ nofun fun t' _ => h.not_recreate hi t'
  rintro target (hclear | hrepaint)
  · exact ⟨i, hi, by rw [← Pc.clear.inj hclear, hactive]⟩
  · cases hrepaint

theorem safe_clear (h : Safe s) {t : Thread} {target : Option SessionId}
    (hpc : s.pc t = .clear target) :
    Safe (s.goto t (.repaint target) { s.manager with active := none }) := by
  obtain ⟨i, hi, htarget⟩ := h.target t target (Or.inl hpc)
  constructor
  · nofun
  · exact fun _ => Or.inr ⟨t, target, goto_pc_self ..⟩
  · intro t' target' ht'
    by_cases htt : t' = t
    · subst htt
      refine ⟨i, hi, ?_⟩
      rw [goto_pc_self] at ht'
      rcases ht' with ht' | ht'
      · cases ht'
      · rw [← Pc.repaint.inj ht', htarget]
    · rw [goto_pc_ne s _ _ htt] at ht'
      exact h.target t' target' ht'
  · intro hempty
    rw [goto_manager] at hempty
    rw [hempty] at hi
    exact (List.not_mem_nil hi).elim
  · exact fun t' ht' => absurd (pc_of_goto ht' nofun) (h.not_recreate hi t')
  · exact h.fresh

omit [DecidableEq Thread] in
theorem safe_stopAll (h : Safe s) (hok : ∀ t, (s.pc t).target = none) :
    Safe { s with
      manager := { s.manager with order := [], active := none }
      stopped := true } where
  active := nofun
  hidden _ := Or.inl rfl
  target t target ht := by
    obtain ⟨i, -, rfl⟩ := h.target t target ht
    have hnone := hok t
    rcases ht with ht | ht
    · rw [ht] at hnone
      cases hnone
    · rw [ht] at hnone
      cases hnone
  empty _ := Or.inl rfl
  recreate _ _ := rfl
  fresh := h.fresh

/-! ## Every run -/

omit [DecidableEq Thread] in
theorem safe_start : Safe (start : Clients Thread) where
  active i hi := by
    obtain rfl := Option.some.inj hi
    exact List.mem_singleton_self _
  hidden := nofun
  target _ _ ht := by
    rcases ht with ht | ht
    · cases ht
    · cases ht
  empty := nofun
  recreate _ ht := by cases ht
  fresh _ horder := (List.not_mem_nil horder).elim

theorem safe_step (a : ClientStep Thread) (h : Safe s) (hok : Alone s a)
    (hs : step s a = some s') : Safe s' := by
  cases a with
  | begin t request =>
      rw [step] at hs
      split at hs
      · rename_i hidle
        obtain rfl := Option.some.inj hs
        refine h.passes (by rw [hidle]; trivial) ?_
        cases request <;> trivial
      · cases hs
  | stopAll =>
      obtain rfl := Option.some.inj hs
      exact safe_stopAll h hok
  | go t =>
      rw [step] at hs
      rw [Alone] at hok
      cases hpc : s.pc t with
      | idle => rw [go, hpc] at hs; cases hs
      | create => rw [hpc] at hok; exact safe_create h hpc hok hs
      | recreate => rw [hpc] at hok; exact safe_recreate h hpc hok hs
      | close sessionId => rw [hpc] at hok; exact safe_close h hpc hok hs
      | check wasActive => rw [hpc] at hok; exact safe_check h hpc hok hs
      | switch target =>
          rw [go, hpc] at hs
          obtain rfl := Option.some.inj hs
          exact safe_switch h (Or.inl (by rw [hpc]; trivial))
      | read =>
          rw [hpc] at hok
          rw [go, hpc] at hs
          obtain rfl := Option.some.inj hs
          exact safe_read h hok
      | clear target =>
          rw [go, hpc] at hs
          obtain rfl := Option.some.inj hs
          exact safe_clear h hpc
      | repaint target =>
          rw [go, hpc] at hs
          obtain rfl := Option.some.inj hs
          exact safe_switch h (Or.inr (h.target t target (Or.inr hpc)))

/-- When all requests have completed, an existing session is active,
unless all were stopped; and `close` replaced only the last session. -/
def Settled (s : Clients Thread) : Prop :=
  (∀ t, s.pc t = .idle) →
    ((∃ i ∈ s.manager.order, s.manager.active = some i)
      ∨ s.stopped = true ∧ s.manager.order = [] ∧ s.manager.active = none)
    ∧ ∀ order ∈ s.freshOver, order = []

omit [DecidableEq Thread] in
theorem Safe.settled (h : Safe s) : Settled s := by
  intro hidle
  refine ⟨?_, h.fresh⟩
  cases hactive : s.manager.active with
  | some i => exact Or.inl ⟨i, h.active i hactive, rfl⟩
  | none =>
      have hempty : s.manager.order = [] := by
        refine (h.hidden hactive).resolve_right ?_
        rintro ⟨t, target, ht⟩
        rw [hidle t] at ht
        cases ht
      refine Or.inr ⟨(h.empty hempty).resolve_right ?_, hempty, rfl⟩
      rintro ⟨t, ⟨wasActive, ht⟩ | ht⟩
      · rw [hidle t] at ht
        cases ht
      · rw [hidle t] at ht
        cases ht

/-- **Tab safety.** Every state a run of undisturbed steps reaches is
settled. -/
theorem clients_settled (h : Reach step Alone (start : Clients Thread) s) : Settled s :=
  (h.invariant Safe safe_start fun _ a _ hsafe hok hs => safe_step a hsafe hok hs).settled

/-! ## Two closes -/

instance [Fintype Thread] (s : Clients Thread) : Decidable (Settled s) :=
  inferInstanceAs (Decidable ((∀ t, s.pc t = .idle) → _ ∧ _))

/-- The first client closes tab 2 and reads its successor 1, the second
closes tab 1 and creates a fresh tab, and the first goes on. -/
def twoCloses (first second : Thread) : List (ClientStep Thread) :=
  [.begin first .new, .go first, .go first, .begin first (.close 2), .go first, .go first,
    .go first, .begin second (.close 1), .go second, .go second, .go second, .go first, .go first]

theorem two_closes_lose_active :
    ∃ s, Reach step Free (start : Clients (Fin 2)) s ∧ ¬Settled s := by
  obtain ⟨s, hs, hbad⟩ := reach_of_replay (p := fun s => decide ¬Settled s)
    (show (replay step Free (start : Clients (Fin 2)) (twoCloses 0 1)).map _ = some true by decide)
  exact ⟨s, hs, of_decide_eq_true hbad⟩

/-- The same two closes, one after the other. -/
theorem two_closes_in_turn :
    ∃ s : Clients (Fin 2), (∀ t, s.pc t = .idle) ∧ s.manager.counter = 3 ∧ Settled s := by
  obtain ⟨s, hs, hdone⟩ := reach_of_replay
    (p := fun s : Clients (Fin 2) => decide ((∀ t, s.pc t = .idle) ∧ s.manager.counter = 3))
    (show (replay step Alone (start : Clients (Fin 2))
      [.begin 0 .new, .go 0, .go 0, .begin 0 (.close 2), .go 0, .go 0, .go 0, .go 0, .go 0,
        .begin 1 (.close 1), .go 1, .go 1, .go 1]).map _ = some true by decide)
  obtain ⟨hidle, hcounter⟩ := of_decide_eq_true hdone
  exact ⟨s, hidle, hcounter, clients_settled hs⟩

end Clients

end Clients

end Zmux
