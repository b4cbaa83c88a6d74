import Mathlib.Data.List.Basic
import Mathlib.Logic.Function.Basic
import Zmux.Runs

/-!
# Attaching the PTY of a session

`_enter_linux_pty` of `pty_session.py` spawns a child with its reader
thread, stores the instance in `holder`, sets `session.pty` and gives the
lock back. When the child is gone the reader reaps it and calls `on_exit`,
which looks the instance up in `holder` and hands it to `_pty_exited`; that
takes the lock, clears `session.pty` if it still is this instance, and may
enter again. Toggles and `stop` come from other threads.

A step is one of these accesses, or a block under the lock that only
looks at the fields modelled here. A run starts with a session that is
running and has no PTY.

The look-up raises `KeyError` as long as `holder` is empty, and the reader
swallows it. `HolderFilled` is the condition that this does not happen:
then no dead PTY stays attached (`no_dead_pty`).
-/

namespace Zmux

/-- The PTYs of a session in the order in which they are spawned. -/
abbrev Instance := ℕ

/-- Where the reader thread of a PTY is. -/
inductive ReaderPc where
  | absent
  | reading
  /-- The loop is left, and `_exited` is set. -/
  | left
  | reaped
  /-- `holder["pty"]` was found. -/
  | found
  /-- `session.pty` was cleared. -/
  | cleared
  | reentering
  /-- `on_exit` has completed. -/
  | done
deriving DecidableEq

/-- Where `_enter_linux_pty` is; the lock is held. -/
inductive EnterPc where
  | entered
  | checked
  | spawned (i : Instance)
  | published (i : Instance)
  | attached
deriving DecidableEq

/-- Who holds the lock of the session over several steps. The caller of
`_enter_linux_pty` is the reader of a PTY, or another thread. -/
inductive Lock where
  | free
  | entering (caller : Option Instance) (pc : EnterPc)
deriving DecidableEq

structure Attach where
  isRunning : Bool
  pty : Option Instance
  lock : Lock
  /-- The number of PTYs so far. -/
  spawned : ℕ
  /-- `holder["pty"]` is set. -/
  published : Instance → Bool
  reader : Instance → ReaderPc

inductive AttachStep where
  /-- `_enter_linux_pty` is called. -/
  | enter (caller : Option Instance)
  /-- Its first test; other reasons to return are free. -/
  | check (proceeds : Bool)
  /-- The constructor, which may fail. -/
  | spawn (succeeds : Bool)
  | publish
  | attach
  | release
  /-- The reader leaves its loop. -/
  | exit (i : Instance)
  | reap (i : Instance)
  | lookup (i : Instance)
  /-- The block of `_pty_exited`. -/
  | clear (i : Instance)
  /-- `if self.is_running and self._auto_start_alpine()`. -/
  | again (i : Instance) (autoStart : Bool)
  | leave
  | stop
deriving DecidableEq

namespace Attach

def start : Attach where
  isRunning := true
  pty := none
  lock := .free
  spawned := 0
  published _ := false
  reader _ := .absent

def goto (s : Attach) (i : Instance) (pc : ReaderPc) : Attach :=
  { s with reader := Function.update s.reader i pc }

/-- `_enter_linux_pty` returns. -/
def unlock (s : Attach) (caller : Option Instance) : Attach :=
  match caller with
  | none => { s with lock := .free }
  | some i => { s.goto i .done with lock := .free }

def step (s : Attach) : AttachStep → Option Attach
  | .enter caller =>
    match s.lock, caller with
    | .free, none => some { s with lock := .entering none .entered }
    | .free, some i =>
      if s.reader i = .reentering then some { s with lock := .entering (some i) .entered }
      else none
    | _, _ => none
  | .check proceeds =>
    match s.lock with
    | .entering caller .entered =>
      if s.isRunning = true ∧ s.pty = none ∧ proceeds = true then
        some { s with lock := .entering caller .checked }
      else some (s.unlock caller)
    | _ => none
  | .spawn succeeds =>
    match s.lock with
    | .entering caller .checked =>
      if succeeds then
        some { s.goto s.spawned .reading with
          lock := .entering caller (.spawned s.spawned)
          spawned := s.spawned + 1 }
      else some (s.unlock caller)
    | _ => none
  | .publish =>
    match s.lock with
    | .entering caller (.spawned i) =>
      some { s with
        lock := .entering caller (.published i)
        published := Function.update s.published i true }
    | _ => none
  | .attach =>
    match s.lock with
    | .entering caller (.published i) =>
      some { s with lock := .entering caller .attached, pty := some i }
    | _ => none
  | .release =>
    match s.lock with
    | .entering caller .attached => some (s.unlock caller)
    | _ => none
  | .exit i => if s.reader i = .reading then some (s.goto i .left) else none
  | .reap i => if s.reader i = .left then some (s.goto i .reaped) else none
  | .lookup i =>
    if s.reader i = .reaped then
      some (s.goto i (if s.published i then .found else .done))
    else none
  | .clear i =>
    if s.reader i = .found ∧ s.lock = .free then
      if s.pty = some i then some { s.goto i .cleared with pty := none }
      else some (s.goto i .done)
    else none
  | .again i autoStart =>
    if s.reader i = .cleared then
      some (s.goto i (if s.isRunning && autoStart then .reentering else .done))
    else none
  | .leave => if s.lock = .free then some { s with pty := none } else none
  | .stop => if s.lock = .free then some { s with isRunning := false, pty := none } else none

/-- The reader looks the instance up only after it was stored. -/
def HolderFilled (s : Attach) : AttachStep → Prop
  | .lookup i => s.published i = true
  | _ => True

instance (s : Attach) (a : AttachStep) : Decidable (HolderFilled s a) :=
  match a with
  | .lookup i => inferInstanceAs (Decidable (s.published i = true))
  | .enter _ | .check _ | .spawn _ | .publish | .attach | .release | .exit _ | .reap _ | .clear _
  | .again .. | .leave | .stop => instDecidableTrue

/-! ## What a step does -/

/-- The steps of `step`, one constructor for each way through the code. -/
inductive Stepped (s : Attach) : AttachStep → Attach → Prop where
  | enter {caller : Option Instance} (hfree : s.lock = .free)
      (hcaller : ∀ i, caller = some i → s.reader i = .reentering) :
      Stepped s (.enter caller) { s with lock := .entering caller .entered }
  | check {caller : Option Instance} (hlock : s.lock = .entering caller .entered)
      (hrunning : s.isRunning = true) (hnone : s.pty = none) :
      Stepped s (.check true) { s with lock := .entering caller .checked }
  | refused {caller : Option Instance} {proceeds : Bool}
      (hlock : s.lock = .entering caller .entered) :
      Stepped s (.check proceeds) (s.unlock caller)
  | spawn {caller : Option Instance} (hlock : s.lock = .entering caller .checked) :
      Stepped s (.spawn true) { s.goto s.spawned .reading with
        lock := .entering caller (.spawned s.spawned)
        spawned := s.spawned + 1 }
  | failed {caller : Option Instance} (hlock : s.lock = .entering caller .checked) :
      Stepped s (.spawn false) (s.unlock caller)
  | publish {caller : Option Instance} {i : Instance}
      (hlock : s.lock = .entering caller (.spawned i)) :
      Stepped s .publish { s with
        lock := .entering caller (.published i)
        published := Function.update s.published i true }
  | attach {caller : Option Instance} {i : Instance}
      (hlock : s.lock = .entering caller (.published i)) :
      Stepped s .attach { s with lock := .entering caller .attached, pty := some i }
  | release {caller : Option Instance} (hlock : s.lock = .entering caller .attached) :
      Stepped s .release (s.unlock caller)
  | exit {i : Instance} (hreader : s.reader i = .reading) : Stepped s (.exit i) (s.goto i .left)
  | reap {i : Instance} (hreader : s.reader i = .left) : Stepped s (.reap i) (s.goto i .reaped)
  | lookup {i : Instance} (hreader : s.reader i = .reaped) :
      Stepped s (.lookup i) (s.goto i (if s.published i then .found else .done))
  | clear {i : Instance} (hreader : s.reader i = .found) (hfree : s.lock = .free)
      (hown : s.pty = some i) : Stepped s (.clear i) { s.goto i .cleared with pty := none }
  | stale {i : Instance} (hreader : s.reader i = .found) (hfree : s.lock = .free)
      (hother : s.pty ≠ some i) : Stepped s (.clear i) (s.goto i .done)
  | again {i : Instance} {autoStart : Bool} (hreader : s.reader i = .cleared) :
      Stepped s (.again i autoStart)
        (s.goto i (if s.isRunning && autoStart then .reentering else .done))
  | leave (hfree : s.lock = .free) : Stepped s .leave { s with pty := none }
  | stop (hfree : s.lock = .free) : Stepped s .stop { s with isRunning := false, pty := none }

variable {s s' : Attach}

theorem stepped_of_step {a : AttachStep} (hs : step s a = some s') : Stepped s a s' := by
  unfold Attach.step at hs
  cases a with
  | enter caller =>
      dsimp only at hs
      split at hs
      · rename_i hfree
        obtain rfl := Option.some.inj hs
        exact .enter hfree nofun
      · rename_i j hfree
        split at hs
        · rename_i hreader
          obtain rfl := Option.some.inj hs
          exact .enter hfree fun i hi => Option.some.inj hi ▸ hreader
        · cases hs
      · cases hs
  | check proceeds =>
      dsimp only at hs
      split at hs
      · rename_i caller hlock
        split at hs
        · rename_i hguard
          obtain ⟨hrunning, hnone, rfl⟩ := hguard
          obtain rfl := Option.some.inj hs
          exact .check hlock hrunning hnone
        · obtain rfl := Option.some.inj hs
          exact .refused hlock
      · cases hs
  | spawn succeeds =>
      dsimp only at hs
      split at hs
      · rename_i caller hlock
        cases succeeds with
        | false =>
            obtain rfl := Option.some.inj hs
            exact .failed hlock
        | true =>
            obtain rfl := Option.some.inj hs
            exact .spawn hlock
      · cases hs
  | clear i =>
      dsimp only at hs
      split at hs
      · rename_i hguard
        split at hs
        · rename_i hown
          obtain rfl := Option.some.inj hs
          exact .clear hguard.1 hguard.2 hown
        · rename_i hother
          obtain rfl := Option.some.inj hs
          exact .stale hguard.1 hguard.2 hother
      · cases hs
  | publish | attach | release | exit _ | reap _ | lookup _ | again _ _ | leave | stop =>
      dsimp only at hs
      split at hs
      · rename_i hguard
        obtain rfl := Option.some.inj hs
        constructor
        exact hguard
      · cases hs

/-! ## The invariant -/

/-- The PTY is attached, or going to be. -/
def Current (s : Attach) (i : Instance) : Prop :=
  s.pty = some i ∨ ∃ caller, s.lock = .entering caller (.spawned i) ∨
    s.lock = .entering caller (.published i)

/-- The reader has not come to `_pty_exited`. -/
def Live (s : Attach) (i : Instance) : Prop :=
  s.reader i = .reading ∨ s.reader i = .left ∨ s.reader i = .reaped ∨ s.reader i = .found

structure WellFormed (s : Attach) : Prop where
  current : ∀ i, s.Current i → s.Live i
  vacant : ∀ caller pc, s.lock = .entering caller pc → pc ≠ .entered → pc ≠ .attached →
    s.isRunning = true ∧ s.pty = none
  fresh : ∀ i, s.spawned ≤ i → s.reader i = .absent
  caller : ∀ i pc, s.lock = .entering (some i) pc → s.reader i = .reentering

theorem wellFormed_start : WellFormed start where
  current := by
    rintro i (h | ⟨caller, h | h⟩) <;> cases h
  vacant := nofun
  fresh _ _ := rfl
  caller := nofun

theorem goto_reader_self (s : Attach) (i : Instance) (pc : ReaderPc) :
    (s.goto i pc).reader i = pc :=
  Function.update_self ..

theorem goto_reader_ne {i j : Instance} (pc : ReaderPc) (h : j ≠ i) :
    (s.goto i pc).reader j = s.reader j :=
  Function.update_of_ne h ..

/-- A reader that is not live is not that of a current PTY. -/
theorem WellFormed.not_current (h : WellFormed s) {i : Instance} {pc : ReaderPc}
    (hpc : s.reader i = pc)
    (hdead : pc = .cleared ∨ pc = .reentering ∨ pc = .done ∨ pc = .absent) : ¬ s.Current i := by
  intro hcurrent
  rcases h.current i hcurrent with hlive | hlive | hlive | hlive <;>
    rcases hdead with rfl | rfl | rfl | rfl <;> cases hpc.symm.trans hlive

/-- A reader moves on. -/
theorem WellFormed.goto (h : WellFormed s) {i : Instance} {pc : ReaderPc}
    (hsome : s.reader i ≠ .absent) (hlive : s.Current i → (s.goto i pc).Live i)
    (hcaller : s.reader i ≠ .reentering) : WellFormed (s.goto i pc) where
  current j hj := by
    have hcurrent : s.Current j := hj
    by_cases hself : j = i
    · subst hself
      exact hlive hcurrent
    · simpa only [Live, goto_reader_ne pc hself] using h.current j hcurrent
  vacant := h.vacant
  fresh j hj := by
    have hself : j ≠ i := by
      rintro rfl
      exact hsome (h.fresh j hj)
    rw [goto_reader_ne pc hself]
    exact h.fresh j hj
  caller j pc' hj := by
    have hself : j ≠ i := by
      rintro rfl
      exact hcaller (h.caller j pc' hj)
    rw [goto_reader_ne pc hself]
    exact h.caller j pc' hj

/-- No PTY is going to be attached when `_enter_linux_pty` returns. -/
theorem WellFormed.unlock (h : WellFormed s) {caller : Option Instance} {pc : EnterPc}
    (hlock : s.lock = .entering caller pc) : WellFormed (s.unlock caller) := by
  cases caller with
  | none =>
      refine ⟨fun i hi => ?_, nofun, h.fresh, nofun⟩
      rcases hi with hpty | ⟨_, hbad | hbad⟩
      · exact h.current i (Or.inl hpty)
      · cases hbad
      · cases hbad
  | some j =>
      have hreader := h.caller j pc hlock
      have hdead := h.not_current hreader (Or.inr (Or.inl rfl))
      refine ⟨fun i hi => ?_, nofun, fun i hi => ?_, nofun⟩
      · rcases hi with hpty | ⟨_, hbad | hbad⟩
        · have hself : i ≠ j := by
            rintro rfl
            exact hdead (Or.inl hpty)
          have hlive := h.current i (Or.inl hpty)
          have hsame := goto_reader_ne (s := s) .done hself
          simpa only [Live, Attach.unlock, hsame] using hlive
        · cases hbad
        · cases hbad
      · have hself : i ≠ j := by
          rintro rfl
          exact absurd ((h.fresh i hi).symm.trans hreader) nofun
        exact (goto_reader_ne .done hself).trans (h.fresh i hi)

/-- Nothing is attached while the lock is free and `session.pty` is `None`. -/
theorem WellFormed.detach (h : WellFormed s) (hfree : s.lock = .free) (isRunning : Bool) :
    WellFormed { s with isRunning := isRunning, pty := none } where
  current i hi := by
    rcases hi with hpty | ⟨_, hbad | hbad⟩
    · cases hpty
    · cases hfree.symm.trans hbad
    · cases hfree.symm.trans hbad
  vacant _ _ hbad := absurd (hfree.symm.trans hbad) nofun
  fresh := h.fresh
  caller _ _ hbad := absurd (hfree.symm.trans hbad) nofun

/-- `_enter_linux_pty` moves on, with a PTY that is live if it has one. -/
theorem WellFormed.relock (h : WellFormed s) {caller : Option Instance} {pc : EnterPc}
    (published : Instance → Bool)
    (hlive : ∀ i, pc = .spawned i ∨ pc = .published i → s.Live i)
    (hvacant : pc ≠ .entered → pc ≠ .attached → s.isRunning = true ∧ s.pty = none)
    (hcaller : ∀ i, caller = some i → s.reader i = .reentering) :
    WellFormed { s with lock := .entering caller pc, published := published } where
  current i hi := by
    rcases hi with hpty | ⟨_, hlock | hlock⟩
    · exact h.current i (Or.inl hpty)
    · cases hlock
      exact hlive i (Or.inl rfl)
    · cases hlock
      exact hlive i (Or.inr rfl)
  vacant _ _ hlock hne hne' := by
    cases hlock
    exact hvacant hne hne'
  fresh := h.fresh
  caller i _ hlock := by
    cases hlock
    exact hcaller i rfl

/-- The new PTY is the only one. -/
theorem WellFormed.spawn (h : WellFormed s) {caller : Option Instance}
    (hlock : s.lock = .entering caller .checked) :
    WellFormed { s.goto s.spawned .reading with
      lock := .entering caller (.spawned s.spawned)
      spawned := s.spawned + 1 } := by
  obtain ⟨hrunning, hnone⟩ := h.vacant caller _ hlock nofun nofun
  refine ⟨fun i hi => ?_, fun _ _ _ _ _ => ⟨hrunning, hnone⟩, fun i hi => ?_, fun i pc hl => ?_⟩
  · rcases hi with hpty | ⟨_, hnew | hnew⟩
    · exact absurd (hnone.symm.trans hpty) nofun
    · cases hnew
      exact Or.inl (goto_reader_self ..)
    · cases hnew
  · have hself : i ≠ s.spawned := by
      rintro rfl
      exact Nat.not_succ_le_self _ hi
    exact (goto_reader_ne .reading hself).trans (h.fresh i (Nat.le_of_succ_le hi))
  · cases hl
    have hreader := h.caller i _ hlock
    have hself : i ≠ s.spawned := by
      rintro rfl
      exact absurd ((h.fresh _ (Nat.le_refl _)).symm.trans hreader) nofun
    exact (goto_reader_ne .reading hself).trans hreader

/-- `_pty_exited` clears its own PTY under the lock. -/
theorem WellFormed.clear (h : WellFormed s) {i : Instance} (hreader : s.reader i = .found)
    (hfree : s.lock = .free) : WellFormed { s.goto i .cleared with pty := none } := by
  refine WellFormed.goto (s := { s with pty := none }) (h.detach hfree s.isRunning)
    (by rw [hreader]; decide) (fun hcurrent => ?_) (by rw [hreader]; decide)
  rcases hcurrent with hpty | ⟨_, hbad | hbad⟩
  · cases hpty
  · exact absurd (hfree.symm.trans hbad) nofun
  · exact absurd (hfree.symm.trans hbad) nofun

/-- `_pty_exited` finds under the lock that its PTY is not the current one. -/
theorem WellFormed.stale (h : WellFormed s) {i : Instance} (hreader : s.reader i = .found)
    (hfree : s.lock = .free) (hother : s.pty ≠ some i) : WellFormed (s.goto i .done) := by
  refine h.goto (by rw [hreader]; decide) (fun hcurrent => ?_) (by rw [hreader]; decide)
  rcases hcurrent with hpty | ⟨_, hbad | hbad⟩
  · exact absurd hpty hother
  · exact absurd (hfree.symm.trans hbad) nofun
  · exact absurd (hfree.symm.trans hbad) nofun

/-- The PTY that is attached was live before. -/
theorem WellFormed.attach (h : WellFormed s) {caller : Option Instance} {i : Instance}
    (hlock : s.lock = .entering caller (.published i)) :
    WellFormed { s with lock := .entering caller .attached, pty := some i } where
  current j hj := by
    rcases hj with hpty | ⟨_, hbad | hbad⟩
    · cases hpty
      exact h.current i (Or.inr ⟨caller, Or.inr hlock⟩)
    · cases hbad
    · cases hbad
  vacant _ _ hl _ hne := by
    cases hl
    exact absurd rfl hne
  fresh := h.fresh
  caller j pc hl := by
    cases hl
    exact h.caller j _ hlock

theorem WellFormed.step {a : AttachStep} (h : WellFormed s) (hok : HolderFilled s a)
    (hs : step s a = some s') : WellFormed s' := by
  cases stepped_of_step hs with
  | enter hfree hcaller =>
      exact h.relock s.published (fun _ hbad => by rcases hbad with hbad | hbad <;> cases hbad)
        (fun hne => absurd rfl hne) hcaller
  | check hlock hrunning hnone =>
      exact h.relock s.published (fun _ hbad => by rcases hbad with hbad | hbad <;> cases hbad)
        (fun _ _ => ⟨hrunning, hnone⟩) fun i hi => h.caller i _ (hi ▸ hlock)
  | refused hlock | failed hlock | release hlock => exact h.unlock hlock
  | spawn hlock => exact h.spawn hlock
  | @publish caller i hlock =>
      refine h.relock _ (fun j hj => ?_) (fun _ _ => h.vacant caller _ hlock nofun nofun)
        fun i hi => h.caller i _ (hi ▸ hlock)
      rcases hj with hj | hj
      · cases hj
      · cases hj
        exact h.current i (Or.inr ⟨caller, Or.inl hlock⟩)
  | attach hlock => exact h.attach hlock
  | exit hreader =>
      refine h.goto (by rw [hreader]; decide) (fun _ => ?_) (by rw [hreader]; decide)
      exact Or.inr (Or.inl (goto_reader_self ..))
  | reap hreader =>
      refine h.goto (by rw [hreader]; decide) (fun _ => ?_) (by rw [hreader]; decide)
      exact Or.inr (Or.inr (Or.inl (goto_reader_self ..)))
  | @lookup i hreader =>
      have hpublished : s.published i = true := hok
      rw [if_pos hpublished]
      refine h.goto (by rw [hreader]; decide) (fun _ => ?_) (by rw [hreader]; decide)
      exact Or.inr (Or.inr (Or.inr (goto_reader_self ..)))
  | clear hreader hfree => exact h.clear hreader hfree
  | stale hreader hfree hother => exact h.stale hreader hfree hother
  | again hreader =>
      refine h.goto (by rw [hreader]; decide) (fun hcurrent => ?_) (by rw [hreader]; decide)
      exact absurd hcurrent (h.not_current hreader (Or.inl rfl))
  | leave hfree => exact h.detach hfree s.isRunning
  | stop hfree => exact h.detach hfree false

/-! ## No dead PTY stays attached -/

theorem wellFormed_of_reach (h : Reach Attach.step HolderFilled start s) : WellFormed s :=
  h.invariant WellFormed wellFormed_start fun _ _ _ hs hok hstep => hs.step hok hstep

/-- The steps of the exit path of a PTY. -/
def exitPath (i : Instance) : List AttachStep :=
  [.exit i, .reap i, .lookup i, .clear i, .again i true, .again i false]

/-- An exit path does not clear a PTY that is not its own. -/
theorem exitPath_keeps {i j : Instance} {a : AttachStep} (ha : a ∈ exitPath i)
    (hs : Attach.step s a = some s') (hpty : s.pty = some j) (hother : j ≠ i) :
    s'.pty = some j := by
  simp only [exitPath, List.mem_cons, List.not_mem_nil, or_false] at ha
  cases stepped_of_step hs with
  | clear _ _ hown =>
      obtain rfl : _ = i := by simpa using ha
      exact absurd (Option.some.inj (hpty.symm.trans hown)) hother
  | exit | reap | lookup | stale | again => exact hpty
  | enter | check | refused | spawn | failed | publish | attach | release | leave | stop =>
      simp at ha

theorem unlock_frame (s : Attach) (caller : Option Instance) :
    (s.unlock caller).spawned = s.spawned ∧ (s.unlock caller).isRunning = s.isRunning := by
  cases caller <;> exact ⟨rfl, rfl⟩

/-- No PTY is spawned while the session is not running, and it stays so. -/
theorem WellFormed.stopped {a : AttachStep} (h : WellFormed s) (hstopped : s.isRunning = false)
    (hs : Attach.step s a = some s') : s'.spawned = s.spawned ∧ s'.isRunning = false := by
  cases stepped_of_step hs with
  | @spawn caller hlock =>
      -- the test was passed under the lock that is still held
      have hrunning := (h.vacant caller _ hlock nofun nofun).1
      exact absurd (hstopped.symm.trans hrunning) (by decide)
  | refused | failed | release => exact hstopped ▸ unlock_frame s _
  | stop => exact ⟨rfl, rfl⟩
  | enter | check | publish | attach | exit | reap | lookup | clear | stale | again | leave =>
      exact ⟨rfl, hstopped⟩

/-- What holds in every state: a PTY whose `on_exit` has completed is not
attached, the exit of another one leaves the attached one alone, and after
`stop` none is spawned. -/
structure Sound (s : Attach) : Prop where
  dead : ∀ i, s.reader i = .done → s.pty ≠ some i
  stale : ∀ i j a s', a ∈ exitPath i → Attach.step s a = some s' → s.pty = some j → j ≠ i →
    s'.pty = some j
  stopped : s.isRunning = false → ∀ a s', Attach.step s a = some s' →
    s'.spawned = s.spawned ∧ s'.isRunning = false

/-- **No dead PTY** stays attached, in every run in which the readers find
their instance in `holder`. -/
theorem no_dead_pty (h : Reach Attach.step HolderFilled start s) : Sound s where
  dead _ hdone hpty :=
    (wellFormed_of_reach h).not_current hdone (Or.inr (Or.inr (Or.inl rfl))) (Or.inl hpty)
  stale _ _ _ _ ha hs hpty hother := exitPath_keeps ha hs hpty hother
  stopped hstopped _ _ hs := (wellFormed_of_reach h).stopped hstopped hs

/-- A PTY is detached and another one entered before the first has gone. -/
theorem reentered_is_sound : ∃ s, Sound s ∧ s.pty = some 1 ∧ s.reader 0 = .done := by
  obtain ⟨s, hs, hend⟩ := reach_of_replay
    (p := fun s : Attach => decide (s.pty = some 1 ∧ s.reader 0 = .done))
    (show (replay Attach.step HolderFilled start
      [.enter none, .check true, .spawn true, .publish, .attach, .release, .leave, .enter none,
        .check true, .spawn true, .exit 0, .publish, .attach, .reap 0, .lookup 0, .release,
        .clear 0]).map _ = some true by decide)
  obtain ⟨hpty, hdone⟩ := of_decide_eq_true hend
  exact ⟨s, no_dead_pty hs, hpty, hdone⟩

/-- A child that exits at once: its reader looks into an empty `holder`,
and the dead PTY is attached. -/
theorem dead_pty_attached : ∃ s, Reach Attach.step Free start s ∧ s.pty = some 0 ∧
    s.reader 0 = .done ∧ ¬ Sound s := by
  obtain ⟨s, hs, hend⟩ := reach_of_replay
    (p := fun s : Attach => decide (s.pty = some 0 ∧ s.reader 0 = .done))
    (show (replay Attach.step Free start
      [.enter none, .check true, .spawn true, .exit 0, .reap 0, .lookup 0, .publish, .attach,
        .release]).map _ = some true by decide)
  obtain ⟨hpty, hdone⟩ := of_decide_eq_true hend
  exact ⟨s, hs, hpty, hdone, fun h => h.dead 0 hdone hpty⟩

end Attach

end Zmux
