import Mathlib.Data.List.Basic
import Zmux.Runs

/-!
# The interrupt latch

The flag that Ctrl+C sets for the command that runs, between the worker
(`_exec_loop` and `_finish_command` of `pty_session.py`) and the input
thread (`_interrupt_running`, `interrupt` and `clear_interrupt`). Input is
handled under the lock of the session, so one Ctrl+C is under way at a
time. `stop`, which ends the worker, is left out, and so is the
`KeyboardInterrupt` that is injected into the worker, but for what the
worker does when it arrives while the command runs.

The worker takes the epoch before it marks itself busy and clears the
flag only if the epoch is still the same: a flag that was set before goes,
one that is set for the new command stays. But the comparison and the
clear are two steps, and so are the increment and the set. `Timely` says
when the latch works all the same.
-/

namespace Zmux

/-- Where the worker is. -/
inductive LatchPc where
  | waiting
  /-- The epoch was read. -/
  | snapped (epoch : ℕ)
  /-- Busy is set. -/
  | marked (epoch : ℕ)
  /-- The epochs were the same, the flag is not cleared yet. -/
  | matched
  | ready
  /-- `leftover` is a ghost: the command was started with a flag that no
  Ctrl+C for it had set. -/
  | running (leftover : Bool)
  /-- The flag was read at the end. -/
  | judged (interrupted : Bool)
  /-- Busy is cleared. -/
  | idle (interrupted : Bool)
deriving DecidableEq

/-- Where Ctrl+C is. `current` is a ghost: busy was tested for the command
the worker is at, not for an earlier one. -/
inductive PressPc where
  | none
  /-- Busy was set. -/
  | tested (current : Bool)
  /-- The epoch was incremented. -/
  | counted (current : Bool)
deriving DecidableEq

/-- `latched` is a ghost: a Ctrl+C for the current command has set the
flag. -/
structure Latch where
  epoch : ℕ
  flag : Bool
  busy : Bool
  worker : LatchPc
  press : PressPc
  latched : Bool

inductive LatchStep where
  | snapshot
  | mark
  | compare
  | clear
  | run
  /-- The command is an incomplete block: busy is cleared early. -/
  | extend
  /-- A `KeyboardInterrupt` ends the command. -/
  | interrupted
  | judge
  | unmark
  /-- The end of `_finish_command`. -/
  | finish
  /-- Ctrl+C finds busy set. -/
  | test
  | count
  | set
deriving DecidableEq

/-- The worker goes on to another command. -/
def PressPc.older : PressPc → PressPc
  | .none => .none
  | .tested _ => .tested false
  | .counted _ => .counted false

namespace Latch

def start : Latch where
  epoch := 0
  flag := false
  busy := false
  worker := .waiting
  press := .none
  latched := false

def step (s : Latch) : LatchStep → Option Latch
  | .snapshot =>
    match s.worker with
    -- busy is clear until the next step, so what is under way is older
    | .waiting => some { s with
        worker := .snapped s.epoch, press := s.press.older, latched := false }
    | _ => none
  | .mark =>
    match s.worker with
    | .snapped epoch => some { s with busy := true, worker := .marked epoch }
    | _ => none
  | .compare =>
    match s.worker with
    | .marked epoch =>
      some { s with worker := if epoch = s.epoch then .matched else .ready }
    | _ => none
  | .clear =>
    match s.worker with
    | .matched => some { s with flag := false, worker := .ready }
    | _ => none
  | .run =>
    match s.worker with
    | .ready => some { s with worker := .running (s.flag && !s.latched) }
    | _ => none
  | .extend =>
    match s.worker with
    | .running _ => some { s with busy := false }
    | _ => none
  | .interrupted =>
    match s.worker with
    | .running _ => some { s with flag := true }
    | _ => none
  | .judge =>
    match s.worker with
    | .running _ => some { s with worker := .judged s.flag }
    | _ => none
  | .unmark =>
    match s.worker with
    | .judged interrupted => some { s with busy := false, worker := .idle interrupted }
    | _ => none
  | .finish =>
    match s.worker with
    | .idle interrupted =>
      if interrupted then some { s with flag := false, worker := .waiting }
      else some { s with worker := .waiting }
    | _ => none
  | .test =>
    match s.press with
    | .none => if s.busy then some { s with press := .tested true } else none
    | _ => none
  | .count =>
    match s.press with
    | .tested current => some { s with epoch := s.epoch + 1, press := .counted current }
    | _ => none
  | .set =>
    match s.press with
    | .counted current =>
      some { s with flag := true, press := .none, latched := s.latched || current }
    | _ => none

/-- Ctrl+C has incremented the epoch and not set the flag. -/
def Pending (s : Latch) : Prop := s.press = .counted true ∨ s.press = .counted false

/-- The flag is set, and no Ctrl+C for the current command has set it. -/
def Stale (s : Latch) : Prop := s.flag = true ∧ s.latched = false

/-- The worker is about to start a command and will not clear the flag:
it has done so, or the epoch has moved. -/
def Exposed (s : Latch) : Prop :=
  match s.worker with
  | .snapped epoch | .marked epoch => epoch ≠ s.epoch
  | .ready => True
  | .waiting | .matched | .running _ | .judged _ | .idle _ => False

/-- A Ctrl+C for the current command does not set the flag between the
comparison and the clear, one for an earlier command does not set it where
it is not cleared, and no command is started with the flag of an earlier
one while a Ctrl+C is between its two steps. -/
def Timely (s : Latch) : LatchStep → Prop
  | .set =>
    (s.press = .counted true → s.worker ≠ .matched) ∧
      (s.press = .counted false → ¬ s.Exposed)
  | .run => s.Stale → ¬ s.Pending
  | _ => True

instance (s : Latch) : Decidable s.Pending :=
  inferInstanceAs (Decidable (_ ∨ _))

instance (s : Latch) : Decidable s.Stale :=
  inferInstanceAs (Decidable (_ ∧ _))

instance (s : Latch) : Decidable s.Exposed :=
  match h : s.worker with
  | .snapped epoch => decidable_of_iff (epoch ≠ s.epoch) (by simp [Exposed, h])
  | .marked epoch => decidable_of_iff (epoch ≠ s.epoch) (by simp [Exposed, h])
  | .ready => isTrue (by simp [Exposed, h])
  | .waiting | .matched | .running _ | .judged _ | .idle _ => isFalse (by simp [Exposed, h])

instance (s : Latch) (a : LatchStep) : Decidable (Timely s a) :=
  match a with
  | .set => inferInstanceAs (Decidable (_ ∧ _))
  | .run => inferInstanceAs (Decidable (_ → _))
  | .snapshot | .mark | .compare | .clear | .extend | .interrupted | .judge | .unmark | .finish
  | .test | .count => instDecidableTrue

/-! ## The invariant -/

/-- What holds where the worker is. Since it took the epoch, the epoch
moves on only with Ctrl+C: one for the current command before it sets the
flag; any other one leaves a stale flag at most until it sets it. -/
def TaggedAt (s : Latch) : LatchPc → Prop
  | .snapped epoch | .marked epoch =>
    epoch ≤ s.epoch ∧ (s.Stale → epoch < s.epoch → s.Pending) ∧
      (s.press = .counted true → epoch < s.epoch) ∧
      (s.latched = true → epoch < s.epoch ∧ s.flag = true)
  | .matched => s.latched = false
  | .ready => (s.latched = true → s.flag = true) ∧ (s.Stale → s.Pending)
  | .running leftover => (s.latched = true → s.flag = true) ∧ leftover = false
  | .waiting | .judged _ | .idle _ => True

def Tagged (s : Latch) : Prop := s.TaggedAt s.worker

variable {s s' : Latch}

theorem tagged_start : Tagged start := trivial

/-! ## The steps of the worker -/

theorem tagged_snapshot (s : Latch) :
    Tagged { s with worker := .snapped s.epoch, press := s.press.older, latched := false } := by
  refine ⟨Nat.le_refl _, fun _ hlt => absurd hlt (Nat.lt_irrefl _), fun hcounted => ?_, nofun⟩
  -- what is under way is not for the next command
  cases hpress : s.press <;> simp [hpress, PressPc.older] at hcounted

theorem tagged_compare {epoch : ℕ} (h : s.TaggedAt (.marked epoch)) :
    Tagged { s with worker := if epoch = s.epoch then .matched else .ready } := by
  obtain ⟨hle, hnewer, -, hlatched⟩ := h
  unfold Tagged
  dsimp only
  split
  · rename_i hsame
    refine Bool.eq_false_iff.mpr fun hset => ?_
    exact Nat.lt_irrefl _ (hsame ▸ (hlatched hset).1)
  · rename_i hother
    exact ⟨fun hset => (hlatched hset).2,
      fun hstale => hnewer hstale (Nat.lt_of_le_of_ne hle hother)⟩

theorem tagged_run (h : s.TaggedAt .ready) (hok : s.Stale → ¬ s.Pending) :
    Tagged { s with worker := .running (s.flag && !s.latched) } := by
  refine ⟨h.1, Bool.eq_false_iff.mpr fun hleftover => ?_⟩
  have hstale : s.Stale := by simpa [Stale] using hleftover
  exact hok hstale (h.2 hstale)

/-! ## The steps of Ctrl+C -/

theorem tagged_test (h : Tagged s) (hpress : s.press = .none) :
    Tagged { s with press := .tested true } := by
  have hnone : ¬ s.Pending := by
    rintro (hcounted | hcounted)
    · cases hpress.symm.trans hcounted
    · cases hpress.symm.trans hcounted
  unfold Tagged at *
  dsimp only
  cases hworker : s.worker with
  | snapped epoch | marked epoch =>
      rw [hworker] at h
      exact ⟨h.1, fun hstale hlt => absurd (h.2.1 hstale hlt) hnone, nofun, h.2.2.2⟩
  | ready =>
      rw [hworker] at h
      exact ⟨h.1, fun hstale => absurd (h.2 hstale) hnone⟩
  | matched | running leftover =>
      rw [hworker] at h
      exact h
  | waiting | judged _ | idle _ => trivial

theorem tagged_count (h : Tagged s) (current : Bool) :
    Tagged { s with epoch := s.epoch + 1, press := .counted current } := by
  have hpending : Pending { s with epoch := s.epoch + 1, press := .counted current } := by
    cases current with
    | true => exact Or.inl rfl
    | false => exact Or.inr rfl
  unfold Tagged at *
  dsimp only
  cases hworker : s.worker with
  | snapped epoch | marked epoch =>
      rw [hworker] at h
      have hlt : epoch < s.epoch + 1 := Nat.lt_succ_of_le h.1
      exact ⟨Nat.le_succ_of_le h.1, fun _ _ => hpending, fun _ => hlt,
        fun hset => ⟨hlt, (h.2.2.2 hset).2⟩⟩
  | ready =>
      rw [hworker] at h
      exact ⟨h.1, fun _ => hpending⟩
  | matched | running leftover =>
      rw [hworker] at h
      exact h
  | waiting | judged _ | idle _ => trivial

/-- The set of a Ctrl+C for the current command. -/
theorem tagged_set_current (h : Tagged s) (hpress : s.press = .counted true)
    (hok : s.worker ≠ .matched) :
    Tagged { s with flag := true, press := .none, latched := true } := by
  have hfresh : ¬ Stale { s with flag := true, press := .none, latched := true } := nofun
  unfold Tagged at *
  dsimp only
  cases hworker : s.worker with
  | snapped epoch | marked epoch =>
      rw [hworker] at h
      exact ⟨h.1, fun hstale => absurd hstale hfresh, nofun, fun _ => ⟨h.2.2.1 hpress, rfl⟩⟩
  | matched => exact absurd hworker hok
  | ready => exact ⟨fun _ => rfl, fun hstale => absurd hstale hfresh⟩
  | running leftover =>
      rw [hworker] at h
      exact ⟨fun _ => rfl, h.2⟩
  | waiting | judged _ | idle _ => trivial

/-- The set of a Ctrl+C for an earlier command. -/
theorem tagged_set_older (h : Tagged s) (hok : ¬ s.Exposed) :
    Tagged { s with flag := true, press := .none } := by
  unfold Exposed at hok
  unfold Tagged at *
  dsimp only
  cases hworker : s.worker with
  | snapped epoch | marked epoch =>
      rw [hworker] at h hok
      have hsame : epoch = s.epoch := not_not.mp hok
      exact ⟨h.1, fun _ hlt => absurd hsame (Nat.ne_of_lt hlt), nofun,
        fun hset => ⟨(h.2.2.2 hset).1, rfl⟩⟩
  | ready =>
      rw [hworker] at hok
      exact absurd trivial hok
  | matched =>
      rw [hworker] at h
      exact h
  | running leftover =>
      rw [hworker] at h
      exact ⟨fun _ => rfl, h.2⟩
  | waiting | judged _ | idle _ => trivial

theorem tagged_step (a : LatchStep) (h : Tagged s) (hok : Timely s a) (hs : step s a = some s') :
    Tagged s' := by
  cases a with
  | snapshot =>
      rw [step] at hs
      split at hs
      · obtain rfl := Option.some.inj hs
        exact tagged_snapshot s
      · cases hs
  | mark =>
      rw [step] at hs
      split at hs
      · rename_i epoch hworker
        obtain rfl := Option.some.inj hs
        rw [Tagged, hworker] at h
        exact h
      · cases hs
  | compare =>
      rw [step] at hs
      split at hs
      · rename_i epoch hworker
        obtain rfl := Option.some.inj hs
        rw [Tagged, hworker] at h
        exact tagged_compare h
      · cases hs
  | clear =>
      rw [step] at hs
      split at hs
      · rename_i hworker
        obtain rfl := Option.some.inj hs
        rw [Tagged, hworker] at h
        exact ⟨fun hset => absurd (h.symm.trans hset) nofun, nofun⟩
      · cases hs
  | run =>
      rw [step] at hs
      split at hs
      · rename_i hworker
        obtain rfl := Option.some.inj hs
        rw [Tagged, hworker] at h
        exact tagged_run h hok
      · cases hs
  | extend =>
      rw [step] at hs
      split at hs
      · obtain rfl := Option.some.inj hs
        exact h
      · cases hs
  | interrupted =>
      rw [step] at hs
      split at hs
      · rename_i leftover hworker
        obtain rfl := Option.some.inj hs
        rw [Tagged, hworker] at h
        rw [Tagged, hworker]
        exact ⟨fun _ => rfl, h.2⟩
      · cases hs
  | judge | unmark =>
      rw [step] at hs
      split at hs
      · obtain rfl := Option.some.inj hs
        trivial
      · cases hs
  | finish =>
      rw [step] at hs
      split at hs
      · split at hs
        · obtain rfl := Option.some.inj hs
          trivial
        · obtain rfl := Option.some.inj hs
          trivial
      · cases hs
  | test =>
      rw [step] at hs
      split at hs
      · rename_i hpress
        split at hs
        · obtain rfl := Option.some.inj hs
          exact tagged_test h hpress
        · cases hs
      · cases hs
  | count =>
      rw [step] at hs
      split at hs
      · rename_i current hpress
        obtain rfl := Option.some.inj hs
        exact tagged_count h current
      · cases hs
  | set =>
      rw [step] at hs
      split at hs
      · rename_i current hpress
        obtain rfl := Option.some.inj hs
        cases current with
        | true =>
            rw [Bool.or_true]
            exact tagged_set_current h hpress (hok.1 hpress)
        | false =>
            rw [Bool.or_false]
            exact tagged_set_older h (hok.2 hpress)
      · cases hs

/-! ## The protocol -/

/-- While a command runs, a Ctrl+C that was meant for it is latched, and
it was not started with the latch of an earlier one. -/
structure Honest (s : Latch) : Prop where
  kept : ∀ leftover, s.worker = .running leftover → s.latched = true → s.flag = true
  fresh : ∀ leftover, s.worker = .running leftover → leftover = false

/-- **The latch protocol**, in every run in which the two threads stay out
of each other's two steps. -/
theorem latch_is_honest (h : Reach step Timely start s) : Honest s := by
  have htagged := h.invariant Tagged tagged_start fun _ a _ hs hok hstep =>
    tagged_step a hs hok hstep
  unfold Tagged at htagged
  constructor
  · intro leftover hworker
    rw [hworker] at htagged
    exact htagged.1
  · intro leftover hworker
    rw [hworker] at htagged
    exact htagged.2

/-- Ctrl+C between busy and the comparison, while the flag of an earlier
one is still set. -/
theorem early_press_is_honest : ∃ s, Honest s ∧ s.worker = .running false ∧
    s.latched = true ∧ s.flag = true := by
  obtain ⟨s, hs, hend⟩ := reach_of_replay
    (p := fun s : Latch =>
      decide (s.worker = .running false ∧ s.latched = true ∧ s.flag = true))
    (show (replay step Timely start
      [.snapshot, .mark, .compare, .clear, .run, .judge, .test, .count, .set, .unmark, .finish,
        .snapshot, .mark, .test, .count, .compare, .set, .run]).map _ = some true by decide)
  exact ⟨s, latch_is_honest hs, of_decide_eq_true hend⟩

/-- Ctrl+C between the comparison and the clear is lost; one that only
increments the epoch before the comparison keeps the latch of an earlier
one for the new command. -/
theorem latch_is_not_honest :
    (∃ s, Reach step Free start s ∧ s.worker = .running false ∧ s.latched = true ∧
      s.flag = false ∧ ¬ Honest s) ∧
    ∃ s, Reach step Free start s ∧ s.worker = .running true ∧ s.flag = true ∧ ¬ Honest s := by
  constructor
  · obtain ⟨s, hs, hend⟩ := reach_of_replay
      (p := fun s : Latch =>
        decide (s.worker = .running false ∧ s.latched = true ∧ s.flag = false))
      (show (replay step Free start
        [.snapshot, .mark, .compare, .test, .count, .set, .clear, .run]).map _ = some true
        by decide)
    obtain ⟨hworker, hlatched, hflag⟩ := of_decide_eq_true hend
    exact ⟨s, hs, hworker, hlatched, hflag, fun h =>
      absurd (hflag.symm.trans (h.kept _ hworker hlatched)) nofun⟩
  · obtain ⟨s, hs, hend⟩ := reach_of_replay
      (p := fun s : Latch => decide (s.worker = .running true ∧ s.flag = true))
      (show (replay step Free start
        [.snapshot, .mark, .compare, .clear, .run, .judge, .test, .count, .set, .test, .unmark,
          .finish, .snapshot, .mark, .count, .compare, .run]).map _ = some true by decide)
    obtain ⟨hworker, hflag⟩ := of_decide_eq_true hend
    exact ⟨s, hs, hworker, hflag, fun h => absurd (h.fresh _ hworker) nofun⟩

end Latch

end Zmux
