import ExactCalc.Numeral
import ExactCalc.Text.Blank
import ExactCalc.Word

/-!
# Settings

What a calculator can be told beforehand, with the bounds that are imposed.

A value out of bounds is moved to the nearest bound, never refused. Texts from
the environment are read leniently: blanks around them count for nothing, and a
text that says nothing leaves the default.

## Main definitions

* `Settings`: The values, with their defaults.
* `Settings.setWorkers`, `setPlaces`, `setDepthBound`: The bounded setters.
* `Settings.Bounded`: What holds of all settings.
* `Settings.readNumber?`, `Settings.readSwitch?`: Texts from the environment.
* `Settings.ofEnvironment`: The defaults, overridden by what is set.

## Theorems

* `Bounded.setWorkers`, `Bounded.setPlaces`, `Bounded.setDepthBound`: The setters keep to
  the bounds.
* `bounded_default`, `bounded_ofEnvironment`: So do the defaults, whatever overrides them.
-/

namespace ExactCalc

/-- What a calculator can be told beforehand. -/
structure Settings where
  /-- How many workers evaluate expressions. -/
  workers : Nat := 10
  /-- How long a check of the preferences stays good, in milliseconds. -/
  recheckInterval : Nat := 60000
  /-- How many decimal places a numeric result may have. -/
  places : Nat := 20
  /-- How deep an expression may be. -/
  depthBound : Nat := 512
  /-- Whether edited text is evaluated as it changes. -/
  live : Bool := true
  deriving DecidableEq, Repr

namespace Settings

/-- The largest number of workers. -/
def maxWorkers : Nat := 64

/-- The largest number of decimal places. -/
def maxPlaces : Nat := 200

/-- Sets the number of workers, at least one. -/
def setWorkers (s : Settings) (n : Nat) : Settings :=
  { s with workers := min (max n 1) maxWorkers }

/-- Sets the number of decimal places. -/
def setPlaces (s : Settings) (n : Nat) : Settings :=
  { s with places := min n maxPlaces }

/-- Sets the depth bound, at least one. -/
def setDepthBound (s : Settings) (n : Nat) : Settings :=
  { s with depthBound := max n 1 }

/-- The number a text says, if it says one that is a size. -/
def readNumber? (s : String) : Option Nat :=
  (Numeral.parseNat? (Text.trim s.toList)).filter (· < Word.sizes)

/-- Whether a text says yes or no, if it says either; case does not matter. -/
def readSwitch? (s : String) : Option Bool :=
  let word := String.ofList ((Text.trim s.toList).map Char.toLower)
  if ["1", "true", "yes", "on", "oui"].contains word then some true
  else if ["0", "false", "no", "off", "non"].contains word then some false
  else none

/-- The defaults, overridden by the texts that are set and say something. -/
def ofEnvironment (workers places live : Option String) : Settings :=
  let s : Settings := {}
  let s := match workers.bind readNumber? with
    | some n => s.setWorkers n
    | none => s
  let s := match places.bind readNumber? with
    | some n => s.setPlaces n
    | none => s
  match live.bind readSwitch? with
  | some b => { s with live := b }
  | none => s

/-- The values are within the bounds that are imposed. -/
structure Bounded (s : Settings) : Prop where
  workers_pos : 0 < s.workers
  workers_le : s.workers ≤ maxWorkers
  places_le : s.places ≤ maxPlaces
  depthBound_pos : 0 < s.depthBound

variable {s : Settings}

theorem Bounded.setWorkers (h : s.Bounded) (n : Nat) : (s.setWorkers n).Bounded :=
  { h with
    workers_pos := by
      show 0 < min (max n 1) maxWorkers
      simp only [maxWorkers]
      omega
    workers_le := Nat.min_le_right _ _ }

theorem Bounded.setPlaces (h : s.Bounded) (n : Nat) : (s.setPlaces n).Bounded :=
  { h with places_le := Nat.min_le_right _ _ }

theorem Bounded.setDepthBound (h : s.Bounded) (n : Nat) : (s.setDepthBound n).Bounded :=
  { h with depthBound_pos := Nat.le_max_right n 1 }

theorem bounded_default : Bounded {} := ⟨by decide, by decide, by decide, by decide⟩

/-- Whatever the environment says, the settings made of it are within the bounds. -/
theorem bounded_ofEnvironment (workers places live : Option String) :
    (ofEnvironment workers places live).Bounded := by
  unfold ofEnvironment
  have hworkers : ∀ {s : Settings}, s.Bounded → Bounded (match workers.bind readNumber? with
      | some n => s.setWorkers n
      | none => s) := fun h => by
    split
    · exact h.setWorkers _
    · exact h
  have hplaces : ∀ {s : Settings}, s.Bounded → Bounded (match places.bind readNumber? with
      | some n => s.setPlaces n
      | none => s) := fun h => by
    split
    · exact h.setPlaces _
    · exact h
  have hall := hplaces (hworkers bounded_default)
  simp only
  split
  · exact { hall with }
  · exact hall

end Settings

end ExactCalc
