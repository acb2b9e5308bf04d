import ExactCalc.Radix

/-!
# Preferences

What the user prefers: the base of numbers without a marker, and whether text
is evaluated while it is edited.

The preferences are checked from time to time. The checks are counted, and they
can be made to fail, which is reported and changes nothing else.

## Main definitions

* `Preferences`: The values.
* `Preferences.check`: One check.
-/

namespace ExactCalc

/-- What the user prefers. -/
structure Preferences where
  radix : Radix
  live : Bool
  /-- How many checks there have been. -/
  checks : Nat
  /-- Why checks fail, if they do. -/
  failure : Option String
  deriving DecidableEq, Repr

namespace Preferences

/-- Preferences that no check has found fault with. -/
def new (radix : Radix) (live : Bool) : Preferences := ⟨radix, live, 0, none⟩

/-- The report of a failed check. -/
def report (reason : String) : String := "collaborateur : " ++ reason

/-- Checks the preferences, and reports if that fails. -/
def check (p : Preferences) : Option String × Preferences :=
  (p.failure.map report, { p with checks := p.checks + 1 })

end Preferences

end ExactCalc
