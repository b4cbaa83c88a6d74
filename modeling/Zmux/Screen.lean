import Mathlib.Data.List.Basic

/-!
# Screens

A log of broadcasts, some of which wipe the screen. What is on the screen
is what was broadcast since the last one that did. The bytes are of any
type `β`: plain ones, or bytes that carry the session they come from.
-/

namespace Zmux

section Screen

variable {β : Type*}

inductive Event (β : Type*) where
  /-- `RESET_TERMINAL_SCREEN`. -/
  | reset
  | output (data : List β)
deriving DecidableEq

def paint (shown : List β) : Event β → List β
  | .reset => []
  | .output data => shown ++ data

/-- The bytes broadcast since the last reset. -/
def screen (log : List (Event β)) : List β := log.foldl paint []

@[simp] theorem screen_snoc (log : List (Event β)) (e : Event β) :
    screen (log ++ [e]) = paint (screen log) e := by
  rw [screen, List.foldl_append]
  rfl

end Screen

end Zmux
