/-!
# Named Constants

The constants a user has named, beside the one the calculator itself defines.

A registry keeps its entries in the order of their names. Saving replaces the
entry of that name; removing spares the constants of the calculator itself.

## Main definitions

* `Variable`: A name, its value as an expression, and a description.
* `Registry`: The entries.
* `Registry.find?`, `contains`, `save`, `remove`, `names`: What can be done.

## Theorems

* `find?_save`: A saved variable is found under its name, and no other name is
  disturbed.
* `find?_remove`: A removed name is gone unless the calculator owns it.
-/

namespace ExactCalc

/-- A named constant. -/
structure Variable where
  name : String
  /-- The value, as the text of an expression. -/
  value : String
  description : Option String
  /-- Whether the calculator itself defines it, so that it is never removed. -/
  system : Bool
  deriving DecidableEq, Repr

namespace Variable

/-- The name that the last displayed result is kept under. -/
def answerName : String := "ans"

/-- The name of the ratio of a circle's circumference to its diameter. -/
def piName : String := "pi"

/-- A variable of the user, without description. -/
def plain (name value : String) : Variable := ⟨name, value, none, false⟩

/-- The variable that keeps a displayed result. -/
def answer (value : String) : Variable := ⟨answerName, value, some "dernier résultat", false⟩

/-- The constant that the calculator itself defines. -/
def circleRatio : Variable :=
  ⟨piName, piName, some "rapport du périmètre au diamètre", true⟩

end Variable

/-- The named constants, in the order of their names. -/
structure Registry where
  entries : List Variable
  deriving DecidableEq, Repr

namespace Registry

/-- No constant at all. -/
def empty : Registry := ⟨[]⟩

/-- Only the constant that the calculator itself defines. -/
def standard : Registry := ⟨[.circleRatio]⟩

/-- The variable of a name. -/
def find? (r : Registry) (name : String) : Option Variable :=
  r.entries.find? (·.name == name)

/-- Whether a name is taken. -/
def contains (r : Registry) (name : String) : Bool :=
  (r.find? name).isSome

/-- The names that are taken, in order. -/
def names (r : Registry) : List String :=
  r.entries.map (·.name)

/-- Puts a variable in its place among the entries, over the one of its name. -/
def insert (v : Variable) : List Variable → List Variable
  | [] => [v]
  | w :: ws =>
    if v.name = w.name then v :: ws
    else if v.name < w.name then v :: w :: ws
    else w :: insert v ws

/-- Adds or replaces a variable. -/
def save (r : Registry) (v : Variable) : Registry :=
  ⟨insert v r.entries⟩

/-- Adds or replaces several variables, in order. -/
def saveAll (r : Registry) (vs : List Variable) : Registry :=
  vs.foldl save r

/-- Whether a name is taken by a constant of the calculator itself. -/
def isProtected (r : Registry) (name : String) : Bool :=
  (r.find? name).any (·.system)

/-- Removes the variable of a name, unless the calculator itself defines it, and
    tells which one is gone. -/
def remove (r : Registry) (name : String) : Option Variable × Registry :=
  if r.isProtected name then (none, r)
  else (r.find? name, ⟨r.entries.filter (·.name != name)⟩)

/-- Searching after an insertion. -/
theorem find?_insert (v : Variable) (ws : List Variable) (name : String) :
    (insert v ws).find? (·.name == name) =
      if v.name = name then some v else ws.find? (·.name == name) := by
  induction ws with
  | nil =>
    by_cases h : v.name = name <;> simp [insert, h]
  | cons w ws ih =>
    by_cases hv : v.name = w.name
    · rw [insert, if_pos hv]
      by_cases h : v.name = name
      · simp [h]
      · have hw : (w.name == name) = false := by simpa [← hv] using h
        simp [h, hw]
    · rw [insert, if_neg hv]
      by_cases hlt : v.name < w.name
      · rw [if_pos hlt]
        by_cases h : v.name = name <;> simp [h]
      · rw [if_neg hlt]
        by_cases hw : w.name = name
        · have h : v.name ≠ name := fun h => hv (h.trans hw.symm)
          simp [hw, h]
        · have hw' : (w.name == name) = false := by simpa using hw
          rw [List.find?_cons_of_neg (by simp [hw']), ih, List.find?_cons_of_neg (by simp [hw'])]

/-- A saved variable is found under its name, and no other name is disturbed. -/
@[simp, grind =] theorem find?_save (r : Registry) (v : Variable) (name : String) :
    (r.save v).find? name = if v.name = name then some v else r.find? name :=
  find?_insert v r.entries name

/-- A removed name is gone unless the calculator owns it, and no other name is
    disturbed. -/
@[simp, grind =] theorem find?_remove (r : Registry) (name other : String) :
    (r.remove name).2.find? other =
      if name = other ∧ r.isProtected name = false then none else r.find? other := by
  unfold remove
  by_cases hp : r.isProtected name = true
  · simp [hp]
  · simp only [hp, Bool.false_eq_true, if_false]
    by_cases h : name = other
    · subst h
      simp [find?, List.find?_filter]
    · simp only [h, false_and, if_false, find?, List.find?_filter]
      congr 1
      funext w
      by_cases hw : w.name = other
      · simp [hw, Ne.symm h]
      · simp [hw]

end Registry

end ExactCalc
