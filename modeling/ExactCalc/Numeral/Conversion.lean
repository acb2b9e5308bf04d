import ExactCalc.Numeral
import ExactCalc.Text.Blank

/-!
# Conversion of Integers Between Bases

An integer typed in one base, written out in another.

The typed text may carry a minus sign, then a marker that overrides the base
the caller names, then digits. Blanks and apostrophes between digits separate
groups and count for nothing. A point or a slash would make the text something
other than an integer, which is reported as such and not as a bad digit.

## Main definitions

* `ConversionError`: Why a text cannot be converted, with its wording.
* `Numeral.isSeparator`: The characters that group digits.
* `Numeral.readDigits`: The digits of a text, its separators dropped.
* `Numeral.readInt`: The integer a text denotes.
* `Numeral.convert`: A text read in one base and written in another.
-/

namespace ExactCalc

/-- Why a text cannot be converted to another base. -/
inductive ConversionError where
  /-- There is no digit in the text. -/
  | empty
  /-- The text denotes a number with a fraction. -/
  | notAnInteger (text : String)
  /-- A character is no digit of the base in force. -/
  | invalidDigit (digit : Char) (radix : Radix)
  deriving DecidableEq, Repr

/-- The wording of a conversion error. -/
def ConversionError.message : ConversionError → String
  | .empty => "rien à convertir"
  | .notAnInteger text => "conversion impossible : '" ++ text ++ "' n’est pas un entier"
  | .invalidDigit digit radix =>
    "chiffre '" ++ digit.toString ++ "' invalide en base " ++ radix.name

namespace Numeral

/-- Whether a character separates groups of digits. -/
def isSeparator (c : Char) : Bool :=
  Text.isBlank c || c == '\''

/-- The digits of a text in base `r`, its separators dropped. The `whole` text
    is what a report of a fraction quotes. -/
def readDigits (whole : String) (r : Radix) : List Char → Except ConversionError (List Char)
  | [] => .ok []
  | c :: cs =>
    if isSeparator c then readDigits whole r cs
    else if c = '.' ∨ c = '/' then .error (.notAnInteger whole)
    else if r.accepts c then (readDigits whole r cs).map (c :: ·)
    else .error (.invalidDigit c r)

/-- The integer that a text denotes, digits being read in base `r` unless a
    marker in the text says otherwise. -/
def readInt (r : Radix) (text : List Char) : Except ConversionError Int :=
  let whole := Text.trim text
  let (negative, rest) := match whole with
    | '-' :: rest => (true, Text.trimStart rest)
    | rest => (false, rest)
  let (active, body) := (Radix.splitMarker? rest).getD (r, rest)
  match readDigits (String.ofList whole) active body with
  | .error e => .error e
  | .ok [] => .error .empty
  | .ok ds =>
    let n : Int := value active.size ds
    .ok (if negative then -n else n)

/-- The integer a text denotes in base `source`, written in base `target`. -/
def convert (text : String) (source target : Radix) : Except ConversionError String :=
  (readInt source text.toList).map fun n => String.ofList (ofInt target n)

/-- Whether a text can be converted at all. -/
def isConvertible (text : String) (source target : Radix) : Bool :=
  match convert text source target with
  | .ok _ => true
  | .error _ => false

end Numeral

end ExactCalc
