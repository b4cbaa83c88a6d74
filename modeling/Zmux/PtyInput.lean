import Mathlib.Data.List.Basic

/-!
# Input of a PTY

In PTY mode `write_input` of `pty_session.py` hands the bytes of a call to
`RealPtyProcess.write` of `realpty.py`, which calls `os.write` once. The
system may take only a front of the buffer; `write` does not look at how
much it took, and returns `True`.

So nothing is lost without a report exactly when no `os.write` is short
(`lossless_iff`).
-/

namespace Zmux

namespace PtyInput

/-- What `os.write` does with a buffer: it takes a front of it that is not
empty and returns its length, or raises `OSError`. -/
inductive OsWrite (data : List UInt8) where
  | accepted (n : ℕ) (pos : 0 < n) (le : n ≤ data.length)
  | error

/-- The length it returns. -/
def OsWrite.count {data : List UInt8} : OsWrite data → Option ℕ
  | .accepted n _ _ => some n
  | .error => none

structure RealPty where
  /-- The bytes that have reached the master. -/
  master : List UInt8
  exited : Bool
deriving DecidableEq

/-- `RealPtyProcess.write`. -/
def RealPty.write (osWrite : (data : List UInt8) → OsWrite data) (data : List UInt8)
    (p : RealPty) : RealPty × Bool :=
  if data = [] ∨ p.exited = true then (p, false)
  else
    match osWrite data with
    | .accepted n _ _ => ({ p with master := p.master ++ data.take n }, true)
    | .error => (p, false)

/-- A session; `host` is what belongs to the host console. -/
structure Session (σ : Type*) where
  isRunning : Bool
  pty : Option RealPty
  host : σ

variable {σ : Type*} (handleText : List UInt8 → σ → σ)

/-- `write_input`, with what `write` of the PTY returned, if it was called;
`write_input` itself returns nothing. -/
def writeInput (osWrite : (data : List UInt8) → OsWrite data) (data : List UInt8)
    (s : Session σ) : Session σ × Option Bool :=
  if s.isRunning = false then (s, none)
  else
    match s.pty with
    | some p =>
      let (p, reported) := p.write osWrite data
      ({ s with pty := some p }, some reported)
    | none => ({ s with host := handleText data s.host }, none)

/-- A call of `write_input`, with what the system does, or the end of the
child, which the reader thread sets. -/
inductive Event where
  | input (data : List UInt8) (osWrite : (data : List UInt8) → OsWrite data)
  | exit

def Event.data : Event → List UInt8
  | .input data _ => data
  | .exit => []

def step (s : Session σ) : Event → Session σ × Option Bool
  | .input data osWrite => writeInput handleText osWrite data s
  | .exit => ({ s with pty := s.pty.map fun p => { p with exited := true } }, none)

def run (s : Session σ) (events : List Event) : Session σ :=
  events.foldl (fun s event => (step handleText s event).1) s

def Session.master (s : Session σ) : List UInt8 := (s.pty.map RealPty.master).getD []

/-- The bytes are all there, in order, or a call whose bytes are not all
there has reported so. -/
def Lossless (s : Session σ) (events : List Event) : Prop :=
  (run handleText s events).master = s.master ++ events.flatMap Event.data
    ∨ ∀ pre event post, events = pre ++ event :: post →
      (run handleText s (pre ++ [event])).master
          ≠ (run handleText s pre).master ++ event.data →
        (step handleText (run handleText s pre) event).2 = some false

/-- The call gets to `os.write`, and that takes less than it was given. -/
def RealPty.Short (p : RealPty) (osWrite : (data : List UInt8) → OsWrite data)
    (data : List UInt8) : Prop :=
  p.exited = false ∧ ∃ n, (osWrite data).count = some n ∧ n < data.length

def Session.Short (s : Session σ) : Event → Prop
  | .input data osWrite => ∃ p, s.pty = some p ∧ p.Short osWrite data
  | .exit => False

/-- A session with a PTY. -/
def attached (host : σ) (p : RealPty) : Session σ := ⟨true, some p, host⟩

/-! ## One call -/

/-- A call delivers the bytes, or is short and returns `True`, or delivers
nothing and returns `False`. -/
theorem write_cases (osWrite : (data : List UInt8) → OsWrite data) (data : List UInt8)
    (p : RealPty) :
    (¬ p.Short osWrite data ∧ (p.write osWrite data).1.master = p.master ++ data)
      ∨ (p.Short osWrite data ∧ (p.write osWrite data).2 = true
        ∧ (p.write osWrite data).1.master.length < p.master.length + data.length)
      ∨ (¬ p.Short osWrite data ∧ (p.write osWrite data).1.master = p.master
        ∧ (p.write osWrite data).2 = false) := by
  by_cases hcalled : data = [] ∨ p.exited = true
  · refine Or.inr (Or.inr ⟨?_, ?_, ?_⟩)
    · rintro ⟨hlive, n, _, hlt⟩
      rcases hcalled with rfl | hexited
      · exact Nat.not_lt_zero _ hlt
      · cases hlive.symm.trans hexited
    · rw [RealPty.write, if_pos hcalled]
    · rw [RealPty.write, if_pos hcalled]
  · obtain ⟨-, hlive⟩ := not_or.mp hcalled
    rw [RealPty.write, if_neg hcalled]
    unfold RealPty.Short
    cases osWrite data with
    | error =>
        refine Or.inr (Or.inr ⟨?_, rfl, rfl⟩)
        rintro ⟨_, n, hcount, _⟩
        cases hcount
    | accepted n pos le =>
        by_cases hlt : n < data.length
        · refine Or.inr (Or.inl ⟨⟨Bool.eq_false_iff.mpr hlive, n, rfl, hlt⟩, rfl, ?_⟩)
          simp only [List.length_append, List.length_take]
          omega
        · refine Or.inl ⟨?_, ?_⟩
          · rintro ⟨_, m, hcount, hm⟩
            obtain rfl := Option.some.inj hcount
            exact hlt hm
          · simp only [List.take_of_length_le (Nat.not_lt.mp hlt)]

/-- So does a step of the session, and the PTY stays attached. -/
theorem step_attached (host : σ) (p : RealPty) (event : Event) :
    ∃ p' : RealPty, (step handleText (attached host p) event).1 = attached host p'
      ∧ ((¬ (attached host p).Short event ∧ p'.master = p.master ++ event.data)
        ∨ ((attached host p).Short event ∧ (step handleText (attached host p) event).2 = some true
          ∧ p'.master.length < p.master.length + event.data.length)
        ∨ (¬ (attached host p).Short event ∧ p'.master = p.master
          ∧ (step handleText (attached host p) event).2 = some false)) := by
  cases event with
  | exit => exact ⟨{ p with exited := true }, rfl, Or.inl ⟨fun h => h, (List.append_nil _).symm⟩⟩
  | input data osWrite =>
      have hshort : (attached host p).Short (.input data osWrite) ↔ p.Short osWrite data :=
        ⟨fun ⟨_, hq, h⟩ => Option.some.inj hq ▸ h, fun h => ⟨p, rfl, h⟩⟩
      refine ⟨(p.write osWrite data).1, rfl, ?_⟩
      rw [hshort]
      rcases write_cases osWrite data p with h | ⟨h, hreport, hlt⟩ | ⟨h, hsame, hreport⟩
      · exact Or.inl h
      · exact Or.inr (Or.inl ⟨h, congrArg some hreport, hlt⟩)
      · exact Or.inr (Or.inr ⟨h, hsame, congrArg some hreport⟩)

/-! ## Runs -/

theorem run_snoc (s : Session σ) (events : List Event) (event : Event) :
    run handleText s (events ++ [event]) = (step handleText (run handleText s events) event).1 :=
  List.foldl_concat ..

theorem run_append (s : Session σ) (events more : List Event) :
    run handleText s (events ++ more) = run handleText (run handleText s events) more :=
  List.foldl_append ..

theorem exists_attached (host : σ) (p : RealPty) (events : List Event) :
    ∃ p', run handleText (attached host p) events = attached host p' := by
  induction events generalizing p with
  | nil => exact ⟨p, rfl⟩
  | cons event events ih =>
      obtain ⟨p', hstep, _⟩ := step_attached handleText host p event
      rw [run, List.foldl_cons, hstep]
      exact ih p'

theorem length_run_le (host : σ) (p : RealPty) (events : List Event) :
    (run handleText (attached host p) events).master.length
      ≤ p.master.length + (events.flatMap Event.data).length := by
  induction events generalizing p with
  | nil => exact Nat.le_refl _
  | cons event events ih =>
      obtain ⟨p', hstep, hcases⟩ := step_attached handleText host p event
      have hle : p'.master.length ≤ p.master.length + event.data.length := by
        rcases hcases with ⟨_, h⟩ | ⟨_, _, h⟩ | ⟨_, h, _⟩
        · exact Nat.le_of_eq (h ▸ List.length_append)
        · exact Nat.le_of_lt h
        · rw [h]
          exact Nat.le_add_right _ _
      have hrest := ih p'
      rw [run, List.foldl_cons, hstep, List.flatMap_cons, List.length_append]
      rw [run] at hrest
      omega

/-- **Nothing is lost without a report exactly when no `os.write` is
short.** -/
theorem lossless_iff (host : σ) (p : RealPty) (events : List Event) :
    Lossless handleText (attached host p) events
      ↔ ∀ pre event post, events = pre ++ event :: post →
        ¬ (run handleText (attached host p) pre).Short event := by
  constructor
  · rintro h pre event post rfl hshort
    obtain ⟨q, hq⟩ := exists_attached handleText host p pre
    rw [hq] at hshort
    obtain ⟨q', hstep, hcases⟩ := step_attached handleText host q event
    rcases hcases with ⟨hfull, _⟩ | ⟨_, hreport, hlt⟩ | ⟨hfull, _⟩
    · exact hfull hshort
    · rcases h with hall | hlost
      · -- the whole run cannot make up for what a short write has left
        have hpre := length_run_le handleText host p pre
        have hpost := length_run_le handleText host q' post
        have hlength := congrArg List.length hall
        rw [List.append_cons, run_append, run_snoc, hq, hstep, List.flatMap_append,
          List.flatMap_append, List.flatMap_singleton, List.length_append, List.length_append,
          List.length_append] at hlength
        rw [hq] at hpre
        change q.master.length ≤ _ at hpre
        change _ = p.master.length + _ at hlength
        omega
      · have hreported := hlost pre event post rfl ?_
        · rw [hq, hreport] at hreported
          cases hreported
        · rw [run_snoc, hq, hstep]
          intro heq
          have hlength := congrArg List.length heq
          rw [List.length_append] at hlength
          change q'.master.length = q.master.length + _ at hlength
          omega
    · exact hfull hshort
  · intro h
    refine Or.inr fun pre event post heq hlost => ?_
    have hfull := h pre event post heq
    obtain ⟨q, hq⟩ := exists_attached handleText host p pre
    rw [hq] at hfull hlost ⊢
    obtain ⟨q', hstep, hcases⟩ := step_attached handleText host q event
    rw [run_snoc, hq, hstep] at hlost
    rcases hcases with ⟨_, hall⟩ | ⟨hshort, _⟩ | ⟨_, _, hreport⟩
    · exact absurd hall hlost
    · exact absurd hshort hfull
    · exact hreport

/-- One byte of two is taken, and the call returns `True`. -/
def oneByte (data : List UInt8) : OsWrite data :=
  match data with
  | [] => .error
  | _ :: rest => .accepted 1 Nat.one_pos (Nat.le_add_left 1 rest.length)

theorem short_lost : ¬ Lossless (fun _ host => host) (attached () ⟨[], false⟩)
    [.input [97, 98] oneByte] := by
  rintro (hall | hlost)
  · cases hall
  · cases hlost [] _ [] rfl (by decide)

end PtyInput

end Zmux
