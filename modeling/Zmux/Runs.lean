import Mathlib.Logic.Basic

/-!
# Runs of a step function

A concurrent component is a state, a type of actions and a step function:
`step s a` is the state after the action, or `none` when it is not enabled
in `s`. A run is any sequence of enabled actions, so it stands for any
interleaving of the parties whose actions they are.

`Reach step ok s₀ s` says that a run leads from `s₀` to `s` in which every
step meets the condition `ok`, a predicate on the state before the step
and the action. With `Free` for `ok` these are all runs. An invariant of
all steps that meet the condition holds in every state reached
(`Reach.invariant`); a concrete run is replayed by `replay`, which checks
the condition as it goes.
-/

namespace Zmux

section Runs

variable {σ α : Type*}

inductive Reach (step : σ → α → Option σ) (ok : σ → α → Prop) (s₀ : σ) : σ → Prop
  | start : Reach step ok s₀ s₀
  | next {s s' : σ} {a : α} : Reach step ok s₀ s → ok s a → step s a = some s' →
      Reach step ok s₀ s'

/-- No condition on the steps. -/
def Free (_ : σ) (_ : α) : Prop := True

instance (s : σ) (a : α) : Decidable (Free s a) := instDecidableTrue

variable {step : σ → α → Option σ} {ok : σ → α → Prop} {s₀ s s' : σ}

/-- What holds at the start and is kept by every step holds throughout. -/
theorem Reach.invariant (h : Reach step ok s₀ s) (Inv : σ → Prop) (hstart : Inv s₀)
    (hstep : ∀ s a s', Inv s → ok s a → step s a = some s' → Inv s') : Inv s := by
  induction h with
  | start => exact hstart
  | next _ hok hnext ih => exact hstep _ _ _ ih hok hnext

theorem Reach.trans {s₁ s₂ : σ} (h : Reach step ok s₀ s₁) (h' : Reach step ok s₁ s₂) :
    Reach step ok s₀ s₂ := by
  induction h' with
  | start => exact h
  | next _ hok hnext ih => exact .next ih hok hnext

theorem Reach.imp {ok' : σ → α → Prop} (himp : ∀ s a, ok s a → ok' s a)
    (h : Reach step ok s₀ s) : Reach step ok' s₀ s := by
  induction h with
  | start => exact .start
  | next _ hok hnext ih => exact .next ih (himp _ _ hok) hnext

/-- Take the actions one by one, as long as they are enabled and meet `ok`. -/
def replay (step : σ → α → Option σ) (ok : σ → α → Prop) [∀ s a, Decidable (ok s a)] :
    σ → List α → Option σ
  | s, [] => some s
  | s, a :: as => if ok s a then (step s a).bind fun s' => replay step ok s' as else none

theorem Reach.of_replay [∀ s a, Decidable (ok s a)] :
    ∀ {as : List α} {s : σ}, Reach step ok s₀ s → replay step ok s as = some s' →
      Reach step ok s₀ s'
  | [], _, hs, h => by
      obtain rfl := Option.some.inj h
      exact hs
  | a :: as, s, hs, h => by
      rw [replay] at h
      split at h
      · rename_i hok
        obtain ⟨s₁, hnext, hrest⟩ := Option.bind_eq_some_iff.mp h
        exact Reach.of_replay (.next hs hok hnext) hrest
      · cases h

/-- A replay that ends in a state with the property `p` reaches one. -/
theorem reach_of_replay [∀ s a, Decidable (ok s a)] {as : List α} {p : σ → Bool}
    (h : (replay step ok s₀ as).map p = some true) :
    ∃ s, Reach step ok s₀ s ∧ p s = true := by
  cases hrun : replay step ok s₀ as with
  | none => rw [hrun] at h; cases h
  | some s =>
      rw [hrun] at h
      exact ⟨s, Reach.of_replay .start hrun, Option.some.inj h⟩

/-- A relation to a second state that follows the same actions, kept by
every step, is kept by the run. -/
theorem replay_follows [∀ s a, Decidable (ok s a)] {ρ : Type*} {follow : ρ → α → ρ}
    {R : σ → ρ → Prop}
    (hstep : ∀ s r a s', R s r → ok s a → step s a = some s' → R s' (follow r a))
    {as : List α} {r : ρ} (hr : R s r) (h : replay step ok s as = some s') :
    R s' (as.foldl follow r) := by
  induction as generalizing s r with
  | nil =>
      obtain rfl := Option.some.inj h
      exact hr
  | cons a as ih =>
      rw [replay] at h
      split at h
      · rename_i hok
        obtain ⟨s₁, hnext, hrest⟩ := Option.bind_eq_some_iff.mp h
        exact ih (hstep s r a s₁ hr hok hnext) hrest
      · cases h

end Runs

end Zmux
