import ExactCalc.Screen

/-!
# History

The screens one can go back to and forth between.

A history is a row of screens and how many of them lie up to and including the
present one. Adding a screen forgets those after the present; a screen equal to
the present is not added again.

## Main definitions

* `History`, `History.add`, `History.isAvailable`, `History.move`: The row of
  screens and what can be done with it.
* `History.Keeper`: A history that works, or one that never has anything to
  give.
-/

namespace ExactCalc

/-- A row of screens. -/
structure History where
  screens : List Screen
  /-- How many screens lie up to and including the present one. -/
  position : Nat
  deriving DecidableEq, Repr

namespace History

/-- The two directions. -/
inductive Move where
  | undo
  | redo
  deriving DecidableEq, Repr

/-- No screen yet. -/
def empty : History := ⟨[], 0⟩

/-- Whether there is a screen in that direction. -/
def isAvailable (h : History) : Move → Bool
  | .undo => h.position > 1
  | .redo => h.position < h.screens.length

/-- Goes one screen in a direction, and gives the screen that is now present. -/
def move (h : History) (m : Move) : Option Screen × History :=
  if h.isAvailable m then
    match m with
    | .undo => (h.screens[h.position - 2]?, { h with position := h.position - 1 })
    | .redo => (h.screens[h.position]?, { h with position := h.position + 1 })
  else (none, h)

/-- Adds a screen after the present one, unless it is the same. -/
def add (h : History) (s : Screen) : History :=
  let past := h.screens.take h.position
  if past.getLast? = some s then { h with screens := past }
  else ⟨past ++ [s], past.length + 1⟩

/-- What keeps the history of a calculator: a history, or something that seems
    to have one and gives nothing. -/
inductive Keeper where
  | recording (h : History)
  | mute
  deriving DecidableEq, Repr

namespace Keeper

/-- Whether the keeper offers a move. -/
def isAvailable : Keeper → Move → Bool
  | recording h, m => h.isAvailable m
  | mute, _ => true

/-- Goes one screen in a direction. -/
def move : Keeper → Move → Option Screen × Keeper
  | recording h, m => let (s, h) := h.move m; (s, recording h)
  | mute, _ => (none, mute)

/-- Adds a screen. -/
def add : Keeper → Screen → Keeper
  | recording h, s => recording (h.add s)
  | mute, _ => mute

end Keeper

end History

end ExactCalc
