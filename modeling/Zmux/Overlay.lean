import Mathlib.Logic.Function.Basic
import Mathlib.Data.List.Basic

/-!
# Overlays

A store is a partial map from keys to values. `overlay top base ks` reads
the keys of `ks` from `top` and every other key from `base`. Writing a
list of keys one by one builds an overlay (`overlay_snoc`), undoing a
list of keys from saved values is an overlay as well, and the undo is
exact precisely when the saved values cover what was changed
(`overlay_eq_iff`).
-/

namespace Zmux

abbrev Store (K V : Type*) := K → Option V

section Overlay

variable {K V : Type*} [DecidableEq K]

def overlay (top base : Store K V) (ks : List K) : Store K V :=
  fun k => if k ∈ ks then top k else base k

theorem overlay_mem {top base : Store K V} {ks : List K} {k : K} (h : k ∈ ks) :
    overlay top base ks k = top k := if_pos h

theorem overlay_notMem {top base : Store K V} {ks : List K} {k : K} (h : k ∉ ks) :
    overlay top base ks k = base k := if_neg h

@[simp] theorem overlay_nil (top base : Store K V) : overlay top base [] = base := by
  funext k
  simp [overlay]

/-- Overlaying one more key is one more write. -/
theorem overlay_snoc (top base : Store K V) (ks : List K) (k : K) :
    overlay top base (ks ++ [k]) = Function.update (overlay top base ks) k (top k) := by
  funext j
  by_cases hjk : j = k
  · subst hjk
    rw [overlay_mem (by simp), Function.update_self]
  · rw [Function.update_of_ne hjk]
    by_cases hj : j ∈ ks
    · rw [overlay_mem (by simp [hj]), overlay_mem hj]
    · rw [overlay_notMem (by simp [hj, hjk]), overlay_notMem hj]

/-- When the undo of `ks` from `saved` gives `base` back: the saved values
are right on `ks`, and nothing outside `ks` was changed. -/
theorem overlay_eq_iff {saved live base : Store K V} {ks : List K} :
    overlay saved live ks = base ↔
      (∀ k ∈ ks, saved k = base k) ∧ ∀ k, k ∉ ks → live k = base k := by
  constructor
  · rintro rfl
    exact ⟨fun k hk => (overlay_mem hk).symm, fun k hk => (overlay_notMem hk).symm⟩
  · rintro ⟨hin, hout⟩
    funext k
    by_cases hk : k ∈ ks
    · rw [overlay_mem hk, hin k hk]
    · rw [overlay_notMem hk, hout k hk]

end Overlay

end Zmux
