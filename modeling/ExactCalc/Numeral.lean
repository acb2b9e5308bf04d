import ExactCalc.Radix

/-!
# Numerals

Whole numbers written in a base, and the whole number a row of digits denotes.

## Main definitions

* `Numeral.digitValue`: The value of one digit character.
* `Numeral.value`: The number a row of digits denotes.
* `Numeral.digits`: The digits of a number, without leading zeros.
* `Numeral.ofInt`: The text of an integer in a base, with a sign if negative.
* `Numeral.parseNat?`: A decimal number as a setting is written.

## Theorems

* `value_append_singleton`: One more digit shifts the value and adds the digit.
-/

namespace ExactCalc

namespace Numeral

/-- The value of a digit: its place in the alphabet of base sixteen, which the
    smaller alphabets begin. A character that is no digit counts for nothing. -/
def digitValue (c : Char) : Nat :=
  match Radix.hex.alphabet.idxOf? c with
  | some v => v
  | none => 0

/-- The number that a row of digits, most significant first, denotes in base
    `b`. -/
def value (b : Nat) (ds : List Char) : Nat :=
  ds.foldl (fun n c => n * b + digitValue c) 0

/-- One more digit at the end shifts the value by the base. -/
theorem value_append_singleton (b : Nat) (ds : List Char) (c : Char) :
    value b (ds ++ [c]) = value b ds * b + digitValue c := by
  simp [value, List.foldl_append]

/-- The digits of a number, most significant first and with no leading zero
    beside the numeral of zero itself. Digits beyond nine are capitals. -/
def digits (r : Radix) (n : Nat) : List Char :=
  (Nat.toDigits r.size n).map Char.toUpper

/-- The text of an integer: a minus sign if it is negative, then the digits of
    its size. -/
def ofInt (r : Radix) (n : Int) : List Char :=
  if n < 0 then '-' :: digits r n.natAbs else digits r n.natAbs

/-- A natural number written in decimal digits, a plus sign being allowed in
    front. -/
def parseNat? (cs : List Char) : Option Nat :=
  let ds := match cs with
    | '+' :: ds => ds
    | ds => ds
  if ds.isEmpty || ds.any (!Radix.dec.accepts ·) then none else some (value 10 ds)

end Numeral

end ExactCalc
