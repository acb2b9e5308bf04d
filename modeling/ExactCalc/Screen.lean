import ExactCalc.Text.Blank

/-!
# What the User Sees

The text being edited, the result on display, and the two together as a state
that can be returned to.

## Main definitions

* `Editor`: Text with a cursor.
* `Display`: A result or an error.
* `Display.result?`: The text of a valid result.
* `Screen`: Editor and display.
-/

namespace ExactCalc

/-- The text being edited, and where the cursor stands in it. -/
structure Editor where
  text : String
  cursor : Nat
  deriving DecidableEq, Repr

namespace Editor

/-- No text. -/
def empty : Editor := ⟨"", 0⟩

/-- A text with the cursor behind it. -/
def ofText (text : String) : Editor := ⟨text, text.length⟩

end Editor

/-- The result on display. -/
structure Display where
  text : String
  valid : Bool
  error : Option String
  deriving DecidableEq, Repr

namespace Display

/-- Nothing on display. -/
def empty : Display := ⟨"", false, none⟩

/-- A valid result. -/
def result (text : String) : Display := ⟨text, true, none⟩

/-- An error. -/
def failure (message : String) : Display := ⟨"", false, some message⟩

/-- The text of the result, without blanks around it, if the display is valid
    and shows one. -/
def result? (d : Display) : Option String :=
  let text := Text.trim d.text.toList
  if d.valid && !text.isEmpty then some (String.ofList text) else none

end Display

/-- Editor and display together. -/
structure Screen where
  editor : Editor
  display : Display
  deriving DecidableEq, Repr

end ExactCalc
