import Zmux.PtyAttach

/-!
# The descriptors of the PTYs of a session

Every PTY has a master descriptor, which `close` of `RealPtyProcess` closes
before it sets `_exited`. `kill` calls `close`; `leave` and `stop` of the
session kill the PTY they have taken out of `session.pty`, and `kill` and
`close` may be called directly as well. The reader, `write` and `resize`
look at `_exited` before each system call on the descriptor.

The steps of the session are those of `Attach`. A call of `kill` or `close`
is anywhere between them, although `leave` and `stop` hold the lock while
they kill, and so is a call of `write` or `resize`.

A shell that ends by itself is never closed: `_pty_exited` only drops it.
`Disciplined` is the condition under which the descriptors are treated as
they should be (`descriptors_closed_once`).
-/

namespace Zmux

/-- Where the loop of `_read_loop` is. -/
inductive LoopPc where
  | check
  /-- `_exited` was not set, and `os.read` comes next. -/
  | issue
  | returned
deriving DecidableEq

/-- The descriptor of a PTY, with the calls that are under way. `closes`
and `late` are ghosts: how often it was closed, and whether it was used
after that. -/
structure Master where
  loop : LoopPc
  exited : Bool
  /-- Calls of `write` and `resize` that have found `_exited` not set. -/
  users : ℕ
  /-- Calls of `kill` and `close` before `os.close`. -/
  pending : ℕ
  /-- Calls of `kill` and `close` between `os.close` and `_exited.set()`. -/
  closing : ℕ
  closes : ℕ
  late : Bool
deriving DecidableEq

structure Descriptors where
  attach : Attach
  master : Instance → Master

inductive DescriptorStep where
  | session (a : AttachStep)
  /-- `while not self._exited.is_set()`. -/
  | readCheck (i : Instance)
  | readIssue (i : Instance)
  /-- `os.read` has returned data, and `emit` has taken it. -/
  | readAgain (i : Instance)
  | callCheck (i : Instance)
  | callIssue (i : Instance)
  /-- `kill` or `close` is called directly. -/
  | request (i : Instance)
  | close (i : Instance)
  | setExited (i : Instance)
deriving DecidableEq

def Master.new : Master where
  loop := .check
  exited := false
  users := 0
  pending := 0
  closing := 0
  closes := 0
  late := false

/-- A system call on the descriptor. -/
def Master.use (m : Master) : Master := { m with late := m.late || decide (0 < m.closes) }

namespace Descriptors

def start : Descriptors where
  attach := .start
  master _ := .new

def set (s : Descriptors) (i : Instance) (m : Master) : Descriptors :=
  { s with master := Function.update s.master i m }

/-- What a step of the session does to the descriptors: the reader sets
`_exited` when it leaves its loop, and a PTY that is taken out is killed. -/
def effect (s : Descriptors) : AttachStep → Option Descriptors
  | .exit i =>
    let m := s.master i
    if m.loop = .returned ∨ (m.loop = .check ∧ m.exited = true) then
      some (s.set i { m with exited := true })
    else none
  | .leave | .stop =>
    match s.attach.pty with
    | none => some s
    | some i => some (s.set i { s.master i with pending := (s.master i).pending + 1 })
  | _ => some s

def step (s : Descriptors) : DescriptorStep → Option Descriptors
  | .session a => do
    let s' ← s.effect a
    let attach ← s.attach.step a
    some { s' with attach := attach }
  | .readCheck i =>
    let m := s.master i
    if s.attach.reader i = .reading ∧ m.loop = .check ∧ m.exited = false then
      some (s.set i { m with loop := .issue })
    else none
  | .readIssue i =>
    let m := s.master i
    if m.loop = .issue then some (s.set i { m.use with loop := .returned }) else none
  | .readAgain i =>
    let m := s.master i
    if s.attach.reader i = .reading ∧ m.loop = .returned then
      some (s.set i { m with loop := .check })
    else none
  | .callCheck i =>
    let m := s.master i
    if i < s.attach.spawned ∧ m.exited = false then
      some (s.set i { m with users := m.users + 1 })
    else none
  | .callIssue i =>
    let m := s.master i
    if 0 < m.users then some (s.set i { m.use with users := m.users - 1 }) else none
  | .request i =>
    let m := s.master i
    if i < s.attach.spawned then some (s.set i { m with pending := m.pending + 1 }) else none
  | .close i =>
    let m := s.master i
    if 0 < m.pending then
      some (s.set i { m with
        pending := m.pending - 1
        closing := m.closing + 1
        closes := m.closes + 1 })
    else none
  | .setExited i =>
    let m := s.master i
    if 0 < m.closing then
      some (s.set i { m with closing := m.closing - 1, exited := true })
    else none

/-- No `kill` or `close` of this PTY was called. -/
def Untouched (m : Master) : Prop := m.pending = 0 ∧ m.closes = 0

instance (m : Master) : Decidable (Untouched m) := inferInstanceAs (Decidable (_ ∧ _))

/-- `kill` or `close` is called once at most for each PTY, and a child is
reaped only after that has closed the descriptor. It is closed while no
thread is between its look at `_exited` and its system call, and no thread
looks at `_exited` before it is set. -/
def Disciplined (s : Descriptors) : DescriptorStep → Prop
  | .session .leave | .session .stop => ∀ i ∈ s.attach.pty, Untouched (s.master i)
  | .session (.reap i) => 0 < (s.master i).closes
  | .request i => Untouched (s.master i)
  | .close i => (s.master i).users = 0 ∧ (s.master i).loop ≠ .issue
  | .readCheck i | .callCheck i => (s.master i).closing = 0
  | _ => True

instance (s : Descriptors) (a : DescriptorStep) : Decidable (Disciplined s a) :=
  match a with
  | .session .leave | .session .stop => inferInstanceAs
      (Decidable (∀ i ∈ s.attach.pty, Untouched (s.master i)))
  | .session (.reap i) => inferInstanceAs (Decidable (0 < (s.master i).closes))
  | .request i => inferInstanceAs (Decidable (Untouched (s.master i)))
  | .close i => inferInstanceAs
      (Decidable ((s.master i).users = 0 ∧ (s.master i).loop ≠ .issue))
  | .readCheck i | .callCheck i => inferInstanceAs (Decidable ((s.master i).closing = 0))
  | .session (.enter _) | .session (.check _) | .session (.spawn _) | .session .publish
  | .session .attach | .session .release | .session (.exit _) | .session (.lookup _)
  | .session (.clear _) | .session (.again ..) | .readIssue _ | .readAgain _ | .callIssue _
  | .setExited _ => instDecidableTrue

/-! ## The invariant of one descriptor -/

structure Good (m : Master) : Prop where
  once : m.pending + m.closes ≤ 1
  exited : 0 < m.closes → m.exited = true ∨ 0 < m.closing
  unused : 0 < m.closes → m.users = 0 ∧ m.loop ≠ .issue
  late : m.late = false

variable {m : Master}

theorem good_new : Good .new where
  once := by decide
  exited := nofun
  unused := nofun
  late := rfl

/-- A look at `_exited` that finds it not set is before the close. -/
theorem Good.open_of_check (h : Good m) (hclosing : m.closing = 0) (hexited : m.exited = false) :
    m.closes = 0 := by
  by_contra hclosed
  rcases h.exited (Nat.pos_of_ne_zero hclosed) with hset | hset
  · exact absurd (hexited.symm.trans hset) (by decide)
  · exact absurd hclosing (Nat.ne_of_gt hset)

theorem Good.use (h : Good m) (hopen : m.closes = 0) : m.use.late = false := by
  change (m.late || decide (0 < m.closes)) = false
  rw [h.late, hopen]
  rfl

theorem Good.readCheck (h : Good m) (hclosing : m.closing = 0) (hexited : m.exited = false) :
    Good { m with loop := .issue } where
  once := h.once
  exited := h.exited
  unused hclosed := absurd (h.open_of_check hclosing hexited) (Nat.ne_of_gt hclosed)
  late := h.late

theorem Good.readIssue (h : Good m) (hloop : m.loop = .issue) :
    Good { m.use with loop := .returned } where
  once := h.once
  exited := h.exited
  unused hclosed := ⟨(h.unused hclosed).1, nofun⟩
  late := by
    refine h.use ?_
    by_contra hclosed
    exact (h.unused (Nat.pos_of_ne_zero hclosed)).2 hloop

theorem Good.readAgain (h : Good m) : Good { m with loop := .check } where
  once := h.once
  exited := h.exited
  unused hclosed := ⟨(h.unused hclosed).1, nofun⟩
  late := h.late

theorem Good.callCheck (h : Good m) (hclosing : m.closing = 0) (hexited : m.exited = false) :
    Good { m with users := m.users + 1 } where
  once := h.once
  exited := h.exited
  unused hclosed := absurd (h.open_of_check hclosing hexited) (Nat.ne_of_gt hclosed)
  late := h.late

theorem Good.callIssue (h : Good m) (husers : 0 < m.users) :
    Good { m.use with users := m.users - 1 } where
  once := h.once
  exited := h.exited
  unused hclosed := absurd (h.unused hclosed).1 (Nat.ne_of_gt husers)
  late := by
    refine h.use ?_
    by_contra hclosed
    exact absurd (h.unused (Nat.pos_of_ne_zero hclosed)).1 (Nat.ne_of_gt husers)

theorem Good.request (h : Good m) (huntouched : Untouched m) :
    Good { m with pending := m.pending + 1 } where
  once := by
    obtain ⟨hpending, hcloses⟩ := huntouched
    change m.pending + 1 + m.closes ≤ 1
    omega
  exited := h.exited
  unused := h.unused
  late := h.late

theorem Good.close (h : Good m) (hpending : 0 < m.pending) (husers : m.users = 0)
    (hloop : m.loop ≠ .issue) :
    Good { m with
      pending := m.pending - 1
      closing := m.closing + 1
      closes := m.closes + 1 } where
  once := by
    have honce := h.once
    change m.pending - 1 + (m.closes + 1) ≤ 1
    omega
  exited _ := Or.inr (Nat.succ_pos _)
  unused _ := ⟨husers, hloop⟩
  late := h.late

theorem Good.setExited (h : Good m) (closing : ℕ) :
    Good { m with closing := closing, exited := true } where
  once := h.once
  exited _ := Or.inl rfl
  unused := h.unused
  late := h.late

/-! ## The invariant of a session -/

/-- The child is reaped. -/
def Past : ReaderPc → Prop
  | .absent | .reading | .left => False
  | .reaped | .found | .cleared | .reentering | .done => True

instance (pc : ReaderPc) : Decidable (Past pc) :=
  match pc with
  | .absent | .reading | .left => instDecidableFalse
  | .reaped | .found | .cleared | .reentering | .done => instDecidableTrue

theorem past_goto {s : Attach} {i j : Instance} {pc : ReaderPc}
    (h : Past ((s.goto i pc).reader j)) : Past (s.reader j) ∨ j = i ∧ Past pc := by
  by_cases hself : j = i
  · subst hself
    rw [Attach.goto_reader_self] at h
    exact Or.inr ⟨rfl, h⟩
  · rw [Attach.goto_reader_ne pc hself] at h
    exact Or.inl h

theorem past_unlock {s : Attach} {caller : Option Instance} {j : Instance}
    (h : Past ((s.unlock caller).reader j)) : Past (s.reader j) ∨ caller = some j := by
  cases caller with
  | none => exact Or.inl h
  | some i =>
      rcases past_goto h with hold | ⟨rfl, -⟩
      · exact Or.inl hold
      · exact Or.inr rfl

theorem unlock_lock (s : Attach) (caller : Option Instance) :
    (s.unlock caller).lock = .free := by
  cases caller <;> rfl

/-- A step of the session reaps no other child than that of `reap`; the
reader that calls `_enter_linux_pty` has reaped its child before. -/
def Reaps (s s' : Attach) (a : AttachStep) : Prop :=
  (∀ i, Past (s'.reader i) → Past (s.reader i) ∨ a = .reap i ∨
    ∃ pc, s.lock = .entering (some i) pc) ∧
  ∀ i pc, s'.lock = .entering (some i) pc → Past (s.reader i) ∨
    ∃ pc', s.lock = .entering (some i) pc'

theorem reaps_unlock {s : Attach} {a : AttachStep} {caller : Option Instance} {pc : EnterPc}
    (hlock : s.lock = .entering caller pc) : Reaps s (s.unlock caller) a := by
  refine ⟨fun i hi => ?_, fun i pc' hl => ?_⟩
  · rcases past_unlock hi with hold | rfl
    · exact Or.inl hold
    · exact Or.inr (Or.inr ⟨pc, hlock⟩)
  · cases (unlock_lock s caller).symm.trans hl

/-- The reader `i` moves on, after its child was reaped if that is where
it goes. -/
theorem reaps_goto {s : Attach} {a : AttachStep} {i : Instance} {pc : ReaderPc}
    (h : Past pc → Past (s.reader i) ∨ a = .reap i) : Reaps s (s.goto i pc) a := by
  refine ⟨fun j hj => ?_, fun j pc' hl => Or.inr ⟨pc', hl⟩⟩
  rcases past_goto hj with hold | ⟨rfl, hpast⟩
  · exact Or.inl hold
  · exact (h hpast).elim Or.inl fun hreap => Or.inr (Or.inl hreap)

theorem reaps_step {s s' : Attach} {a : AttachStep} (hs : s.step a = some s') :
    Reaps s s' a := by
  cases Attach.stepped_of_step hs with
  | enter _ hcaller =>
      refine ⟨fun i hi => Or.inl hi, fun i pc hl => ?_⟩
      cases hl
      rw [hcaller i rfl]
      exact Or.inl trivial
  | check hlock | publish hlock | attach hlock =>
      refine ⟨fun i hi => Or.inl hi, fun i pc hl => ?_⟩
      cases hl
      exact Or.inr ⟨_, hlock⟩
  | spawn hlock =>
      refine ⟨fun i hi => ?_, fun i pc hl => ?_⟩
      · exact (past_goto hi).elim Or.inl fun hnew => absurd hnew.2 id
      · cases hl
        exact Or.inr ⟨_, hlock⟩
  | refused hlock | failed hlock | release hlock => exact reaps_unlock hlock
  | exit => exact reaps_goto fun hpast => absurd hpast id
  | reap => exact reaps_goto fun _ => Or.inr rfl
  | lookup hreader | clear hreader | stale hreader | again hreader =>
      exact reaps_goto fun _ => Or.inl (by rw [hreader]; trivial)
  | leave | stop => exact ⟨fun i hi => Or.inl hi, fun i pc hl => Or.inr ⟨pc, hl⟩⟩

structure Kept (s : Descriptors) : Prop where
  good : ∀ i, Good (s.master i)
  reaped : ∀ i, Past (s.attach.reader i) → 0 < (s.master i).closes
  caller : ∀ i pc, s.attach.lock = .entering (some i) pc → 0 < (s.master i).closes

variable {s s' : Descriptors}

theorem kept_start : Kept start where
  good _ := good_new
  reaped _ h := absurd h id
  caller := nofun

/-- The calls on one descriptor. -/
theorem Kept.set (h : Kept s) {i : Instance} (hgood : Good m)
    (hcloses : (s.master i).closes ≤ m.closes) : Kept (s.set i m) := by
  have hmono : ∀ j, 0 < (s.master j).closes → 0 < ((s.set i m).master j).closes := by
    intro j hj
    by_cases hself : j = i
    · subst hself
      simp only [Descriptors.set, Function.update_self]
      exact Nat.lt_of_lt_of_le hj hcloses
    · simpa only [Descriptors.set, Function.update_of_ne hself] using hj
  refine ⟨fun j => ?_, fun j hj => hmono j (h.reaped j hj),
    fun j pc hl => hmono j (h.caller j pc hl)⟩
  by_cases hself : j = i
  · subst hself
    simpa only [Descriptors.set, Function.update_self] using hgood
  · simpa only [Descriptors.set, Function.update_of_ne hself] using h.good j

/-- The steps of the session. -/
theorem Kept.session (h : Kept s) {a : AttachStep} {attach : Attach}
    (hstep : s.attach.step a = some attach)
    (hreap : ∀ i, a = .reap i → 0 < (s.master i).closes) :
    Kept { s with attach := attach } := by
  obtain ⟨hreaders, hcallers⟩ := reaps_step hstep
  refine ⟨h.good, fun i hi => ?_, fun i pc hl => ?_⟩
  · rcases hreaders i hi with hold | hthis | ⟨pc, hlock⟩
    · exact h.reaped i hold
    · exact hreap i hthis
    · exact h.caller i pc hlock
  · rcases hcallers i pc hl with hold | ⟨pc', hlock⟩
    · exact h.reaped i hold
    · exact h.caller i pc' hlock

/-- A PTY that is taken out of the session is killed for the first time. -/
theorem Kept.kill (h : Kept s) {i : Instance} (huntouched : Untouched (s.master i)) :
    Kept (s.set i { s.master i with pending := (s.master i).pending + 1 }) :=
  h.set ((h.good i).request huntouched) (Nat.le_refl _)

theorem Kept.effect (h : Kept s) {a : AttachStep} (hok : Disciplined s (.session a))
    (he : s.effect a = some s') : Kept s' ∧ s'.attach = s.attach := by
  have hkill (hok : ∀ i ∈ s.attach.pty, Untouched (s.master i))
      (he : (match s.attach.pty with
        | none => some s
        | some i => some (s.set i { s.master i with pending := (s.master i).pending + 1 }))
          = some s') : Kept s' ∧ s'.attach = s.attach := by
    cases hpty : s.attach.pty with
    | none =>
        rw [hpty] at he
        obtain rfl := Option.some.inj he
        exact ⟨h, rfl⟩
    | some i =>
        rw [hpty] at he
        obtain rfl := Option.some.inj he
        exact ⟨h.kill (hok i hpty), rfl⟩
  cases a with
  | exit i =>
      dsimp only [Descriptors.effect] at he
      split at he
      · obtain rfl := Option.some.inj he
        exact ⟨h.set ((h.good i).setExited _) (Nat.le_refl _), rfl⟩
      · cases he
  | leave => exact hkill hok he
  | stop => exact hkill hok he
  | enter _ | check _ | spawn _ | publish | attach | release | reap _ | lookup _ | clear _
  | again _ _ =>
      obtain rfl := Option.some.inj he
      exact ⟨h, rfl⟩

theorem Kept.sessionStep (h : Kept s) {a : AttachStep} (hok : Disciplined s (.session a))
    (hs : step s (.session a) = some s') : Kept s' := by
  obtain ⟨s₁, heffect, hs⟩ := Option.bind_eq_some_iff.mp hs
  obtain ⟨attach, hattach, hs⟩ := Option.bind_eq_some_iff.mp hs
  obtain rfl := Option.some.inj hs
  obtain ⟨hkept, hsame⟩ := h.effect hok heffect
  refine hkept.session (hsame ▸ hattach) fun i hreap => ?_
  subst hreap
  obtain rfl := Option.some.inj heffect
  exact hok

theorem Kept.step (h : Kept s) {a : DescriptorStep} (hok : Disciplined s a)
    (hs : step s a = some s') : Kept s' := by
  cases a with
  | session a => exact h.sessionStep hok hs
  | readCheck i =>
      dsimp only [Descriptors.step] at hs
      split at hs
      · rename_i hguard
        obtain rfl := Option.some.inj hs
        exact h.set ((h.good i).readCheck hok hguard.2.2) (Nat.le_refl _)
      · cases hs
  | readIssue i =>
      dsimp only [Descriptors.step] at hs
      split at hs
      · rename_i hloop
        obtain rfl := Option.some.inj hs
        exact h.set ((h.good i).readIssue hloop) (Nat.le_refl _)
      · cases hs
  | readAgain i =>
      dsimp only [Descriptors.step] at hs
      split at hs
      · obtain rfl := Option.some.inj hs
        exact h.set (h.good i).readAgain (Nat.le_refl _)
      · cases hs
  | callCheck i =>
      dsimp only [Descriptors.step] at hs
      split at hs
      · rename_i hguard
        obtain rfl := Option.some.inj hs
        exact h.set ((h.good i).callCheck hok hguard.2) (Nat.le_refl _)
      · cases hs
  | callIssue i =>
      dsimp only [Descriptors.step] at hs
      split at hs
      · rename_i husers
        obtain rfl := Option.some.inj hs
        exact h.set ((h.good i).callIssue husers) (Nat.le_refl _)
      · cases hs
  | request i =>
      dsimp only [Descriptors.step] at hs
      split at hs
      · obtain rfl := Option.some.inj hs
        exact h.kill hok
      · cases hs
  | close i =>
      dsimp only [Descriptors.step] at hs
      split at hs
      · rename_i hpending
        obtain rfl := Option.some.inj hs
        exact h.set ((h.good i).close hpending hok.1 hok.2) (Nat.le_succ _)
      · cases hs
  | setExited i =>
      dsimp only [Descriptors.step] at hs
      split at hs
      · obtain rfl := Option.some.inj hs
        exact h.set ((h.good i).setExited _) (Nat.le_refl _)
      · cases hs

/-! ## The descriptors are closed once -/

/-- Every descriptor is closed at most once, by the time its child is
reaped and the session has dropped it exactly once, and is not used after
that. -/
structure ClosedOnce (s : Descriptors) : Prop where
  once : ∀ i, (s.master i).closes ≤ 1
  closed : ∀ i, Past (s.attach.reader i) → s.attach.pty ≠ some i → (s.master i).closes = 1
  unused : ∀ i, (s.master i).late = false

/-- **Descriptor discipline**, in every run whose steps keep to it. -/
theorem descriptors_closed_once (h : Reach step Disciplined start s) : ClosedOnce s := by
  have hkept : Kept s :=
    h.invariant Kept kept_start fun _ _ _ hs hok hstep => hs.step hok hstep
  have honce : ∀ i, (s.master i).closes ≤ 1 := fun i =>
    Nat.le_trans (Nat.le_add_left ..) (hkept.good i).once
  exact ⟨honce, fun i hpast _ => Nat.le_antisymm (honce i) (hkept.reaped i hpast),
    fun i => (hkept.good i).late⟩

/-- A shell is entered, read from, written to and detached. -/
theorem detached_is_closed : ∃ s, ClosedOnce s ∧ s.attach.reader 0 = .done ∧
    (s.master 0).closes = 1 := by
  obtain ⟨s, hs, hend⟩ := reach_of_replay
    (p := fun s : Descriptors => decide (s.attach.reader 0 = .done ∧ (s.master 0).closes = 1))
    (show (replay step Disciplined start
      [.session (.enter none), .session (.check true), .session (.spawn true), .readCheck 0,
        .session .publish, .session .attach, .session .release, .callCheck 0, .callIssue 0,
        .readIssue 0, .session .leave, .close 0, .setExited 0, .session (.exit 0),
        .session (.reap 0), .session (.lookup 0), .session (.clear 0)]).map _
        = some true by decide)
  obtain ⟨hdone, hcloses⟩ := of_decide_eq_true hend
  exact ⟨s, descriptors_closed_once hs, hdone, hcloses⟩

/-- The shell is left with `exit`: its descriptor stays open. -/
theorem exited_stays_open : ∃ s, Reach step Free start s ∧ s.attach.reader 0 = .done ∧
    (s.master 0).closes = 0 ∧ ¬ ClosedOnce s := by
  obtain ⟨s, hs, hend⟩ := reach_of_replay
    (p := fun s : Descriptors => decide (s.attach.reader 0 = .done ∧ s.attach.pty = none ∧
      (s.master 0).closes = 0))
    (show (replay step Free start
      [.session (.enter none), .session (.check true), .session (.spawn true),
        .session .publish, .session .attach, .session .release, .readCheck 0, .readIssue 0,
        .session (.exit 0), .session (.reap 0), .session (.lookup 0), .session (.clear 0),
        .session (.again 0 false)]).map _ = some true by decide)
  obtain ⟨hdone, hpty, hcloses⟩ := of_decide_eq_true hend
  refine ⟨s, hs, hdone, hcloses, fun h => ?_⟩
  have hclosed := h.closed 0 (by rw [hdone]; trivial) (by rw [hpty]; nofun)
  exact absurd (hcloses.symm.trans hclosed) (by decide)

end Descriptors

end Zmux
