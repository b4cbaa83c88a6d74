import Mathlib.Data.Nat.Notation
import Mathlib.Tactic.SplitIfs
import Zmux.Triples

/-!
# Calls of a system that may fail

A program works on a disk by calls, and keeps locals of its own. `Faults`
says which calls fail for a reason that is not the disk's, by their number:
so a statement for every `Faults` is one for every such failure. A call
either answers from the disk (`look`) or changes it (`call`), and when it
raises it has changed nothing, or some of it (`write`).
-/

namespace Zmux

/-- `raise` makes an exception of an error of the system, and `failure` is
the error of a call that fails. -/
structure Faults (ω ε : Type) where
  fails : ℕ → Bool
  failure : ω
  raise : ω → ε

structure CallState (δ κ : Type) where
  disk : δ
  /-- How many calls there have been. -/
  calls : ℕ
  locals : κ

variable {ω ε δ κ α : Type}

namespace Faults

variable (faults : Faults ω ε)

def look (f : δ → Except ω α) : EStateM ε (CallState δ κ) α := fun s =>
  let s' := { s with calls := s.calls + 1 }
  if faults.fails s.calls then .error (faults.raise faults.failure) s'
  else match f s.disk with
    | .error e => .error (faults.raise e) s'
    | .ok a => .ok a s'

def call (f : δ → Except ω δ) : EStateM ε (CallState δ κ) PUnit := fun s =>
  let s' := { s with calls := s.calls + 1 }
  if faults.fails s.calls then .error (faults.raise faults.failure) s'
  else match f s.disk with
    | .error e => .error (faults.raise e) s'
    | .ok disk => .ok ⟨⟩ { s' with disk := disk }

/-- What is done when it fails is `short`. -/
def write (f short : δ → Except ω δ) : EStateM ε (CallState δ κ) PUnit := fun s =>
  let s' := { s with calls := s.calls + 1 }
  match (if faults.fails s.calls then short else f) s.disk with
  | .error e => .error (faults.raise e) s'
  | .ok disk =>
    if faults.fails s.calls then .error (faults.raise faults.failure) { s' with disk := disk }
    else .ok ⟨⟩ { s' with disk := disk }

end Faults

/-- Whether it raises or not. -/
def Keeps (I : CallState δ κ → Prop) (x : EStateM ε (CallState δ κ) α) : Prop :=
  Triple I x (fun _ => I) fun _ => I

/-- It does not depend on how many calls there have been. -/
def Calm (I : CallState δ κ → Prop) : Prop := ∀ s n, I s → I { s with calls := n }

namespace Faults

variable {faults : Faults ω ε} {I I' : CallState δ κ → Prop}

theorem look_keeps (hI : Calm I) (f : δ → Except ω α) : Keeps I (faults.look f) := by
  intro s hs
  have hs' := hI s (s.calls + 1) hs
  rw [look]
  dsimp only
  split_ifs
  · exact hs'
  · cases f s.disk <;> exact hs'

theorem call_triple (hI : Calm I) {f : δ → Except ω δ}
    (h : ∀ s d n, I s → f s.disk = .ok d → I' { s with disk := d, calls := n }) :
    Triple I (faults.call f) (fun _ => I') fun e s => I s
      ∧ (e = faults.raise faults.failure
        ∨ ∃ e', e = faults.raise e' ∧ f s.disk = .error e') := by
  intro s hs
  have hs' := hI s (s.calls + 1) hs
  rw [call]
  dsimp only
  split_ifs
  · exact ⟨hs', Or.inl rfl⟩
  · cases hf : f s.disk with
    | error e => exact ⟨hs', Or.inr ⟨e, rfl, hf⟩⟩
    | ok d => exact h s d _ hs hf

theorem call_keeps (hI : Calm I) {f : δ → Except ω δ}
    (h : ∀ s d n, I s → f s.disk = .ok d → I { s with disk := d, calls := n }) :
    Keeps I (faults.call f) :=
  (call_triple hI h).conseq (fun _ hs => hs) (fun _ _ hs => hs) fun _ _ hs => hs.1

theorem write_keeps (hI : Calm I) {f short : δ → Except ω δ}
    (hf : ∀ s d n, I s → f s.disk = .ok d → I { s with disk := d, calls := n })
    (hshort : ∀ s d n, I s → short s.disk = .ok d → I { s with disk := d, calls := n }) :
    Keeps I (faults.write f short) := by
  intro s hs
  rw [write]
  dsimp only
  by_cases hfails : faults.fails s.calls = true
  · rw [if_pos hfails]
    cases hdone : short s.disk with
    | error e => exact hI s _ hs
    | ok d =>
        dsimp only
        rw [if_pos hfails]
        exact hshort s d _ hs hdone
  · rw [if_neg hfails]
    cases hdone : f s.disk with
    | error e => exact hI s _ hs
    | ok d =>
        dsimp only
        rw [if_neg hfails]
        exact hf s d _ hs hdone

end Faults

end Zmux
