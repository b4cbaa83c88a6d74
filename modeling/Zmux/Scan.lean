import Mathlib.Data.List.Basic

/-!
# Scans that stop at the first element that does not pass

A loop over a list that handles one element after the other and stops at
the first one it cannot handle splits the list in two: the elements that
passed, and the rest. Whether an element passes may depend on the
elements before it, so `Pass` takes the prefix as an argument. The split
is determined by the list (`stop_unique`): what is known about one split
with these properties is known about the one a run of the loop found.
-/

namespace Zmux

section Scan

variable {α : Type*} {Pass : List α → α → Prop}

/-- Every element of `done` passed after the ones before it. -/
def Passes (Pass : List α → α → Prop) (done : List α) : Prop :=
  ∀ a x b, done = a ++ x :: b → Pass a x

/-- The scan cannot go on after `done`. -/
def Halts (Pass : List α → α → Prop) (done rest : List α) : Prop :=
  ∀ x tl, rest = x :: tl → ¬Pass done x

theorem passes_nil : Passes Pass [] := by
  intro a x b h
  simp at h

theorem passes_snoc {done : List α} {x : α} (hdone : Passes Pass done) (hx : Pass done x) :
    Passes Pass (done ++ [x]) := by
  intro a y b h
  rcases List.eq_nil_or_concat b with rfl | ⟨b', z, rfl⟩
  · obtain ⟨rfl, rfl⟩ := List.append_inj' h rfl |>.imp_right (fun h => by simpa using h)
    exact hx
  · rw [List.concat_eq_append, ← List.cons_append, ← List.append_assoc] at h
    exact hdone a y b' (List.append_inj' h rfl).1

theorem Passes.prefix {done more : List α} (h : Passes Pass (done ++ more)) :
    Passes Pass done := by
  rintro a x b rfl
  exact h a x (b ++ more) (by simp)

theorem Passes.next {done rest : List α} {x : α} (h : Passes Pass (done ++ x :: rest)) :
    Pass done x := h done x rest rfl

/-- Two scans of one list stop at one place. -/
theorem stop_unique {done rest done' rest' : List α} (heq : done ++ rest = done' ++ rest')
    (hp : Passes Pass done) (hh : Halts Pass done rest)
    (hp' : Passes Pass done') (hh' : Halts Pass done' rest') :
    done = done' ∧ rest = rest' := by
  rcases List.append_eq_append_iff.mp heq with ⟨mid, rfl, rfl⟩ | ⟨mid, rfl, rfl⟩
  · cases mid with
    | nil => simp
    | cons x tl => exact absurd hp'.next (hh x (tl ++ rest') rfl)
  · cases mid with
    | nil => simp
    | cons x tl => exact absurd hp.next (hh' x (tl ++ rest) rfl)

end Scan

end Zmux
