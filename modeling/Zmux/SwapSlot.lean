import Mathlib.Data.List.Basic

/-!
# Variables that are swapped and restored

A shared variable that several owners use the same way: save what it
holds, put in something of their own or nothing, and put back later what
they saved. This is right when owners nest. In general the variable is
`Tidy` when it holds what the most recent owner still there has put in,
or its base value if none has. Entering keeps it so; leaving keeps it so
exactly when what the owner saved is what the remaining owners make of
the variable (`tidy_leave_iff`).
-/

namespace Zmux

section Slot

variable {ω τ : Type*} [DecidableEq ω]

structure Holder (ω τ : Type*) where
  owner : ω
  saved : τ
  installed : Option τ

/-- The holders are listed most recent first. -/
structure Slot (ω τ : Type*) where
  current : τ
  holders : List (Holder ω τ)

/-- What the holders make of a variable with this base value. -/
def topOf (base : τ) : List (Holder ω τ) → τ
  | [] => base
  | h :: hs => h.installed.getD (topOf base hs)

/-- The most recent holder that has put something in. -/
def replacer (holders : List (Holder ω τ)) : Option (Holder ω τ) :=
  holders.find? fun h => h.installed.isSome

omit [DecidableEq ω] in
theorem topOf_eq_replacer (base : τ) : ∀ holders : List (Holder ω τ),
    topOf base holders = ((replacer holders).bind Holder.installed).getD base
  | [] => rfl
  | h :: hs => by
      cases hi : h.installed with
      | none =>
          rw [topOf, hi, Option.getD_none, topOf_eq_replacer base hs]
          simp [replacer, hi]
      | some v => simp [topOf, replacer, hi]

namespace Slot

def enter (s : Slot ω τ) (owner : ω) (installed : Option τ) : Slot ω τ where
  current := installed.getD s.current
  holders := ⟨owner, s.current, installed⟩ :: s.holders

/-- What the owner saved. -/
def saved (s : Slot ω τ) (owner : ω) : τ :=
  ((s.holders.find? fun h => h.owner = owner).map Holder.saved).getD s.current

/-- The holders other than the owner. -/
def others (s : Slot ω τ) (owner : ω) : List (Holder ω τ) :=
  s.holders.filter fun h => h.owner ≠ owner

def leave (s : Slot ω τ) (owner : ω) : Slot ω τ where
  current := s.saved owner
  holders := s.others owner

def Tidy (base : τ) (s : Slot ω τ) : Prop := s.current = topOf base s.holders

omit [DecidableEq ω] in
theorem tidy_enter {base : τ} {s : Slot ω τ} (h : s.Tidy base) (owner : ω)
    (installed : Option τ) : (s.enter owner installed).Tidy base := by
  show installed.getD s.current = installed.getD (topOf base s.holders)
  rw [h]

theorem tidy_leave_iff {base : τ} {s : Slot ω τ} {owner : ω} :
    (s.leave owner).Tidy base ↔ s.saved owner = topOf base (s.others owner) := Iff.rfl

end Slot

end Slot

end Zmux
