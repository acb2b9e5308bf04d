import ExactCalc.Rational
import ExactCalc.Word

/-!
# Decimal Text

Numbers written with a decimal point.

A scaled integer is a number times a power of ten; its text puts the point back.
The text of a rational number is exact when it ends within the places allowed,
and is cut off otherwise, never rounded.

The power of ten takes its exponent as a count. A larger number of places is cut
down to one, so that the scale starts again from one.

## Main definitions

* `Decimal.scale`: The power of ten for a number of places.
* `Decimal.ofScaled`: The text of a scaled integer.
* `Decimal.trim`: A text without the zeros at its end.
* `Decimal.scaled`: A rational number as a scaled integer, cut off.
* `Decimal.divideOut`: A number without the powers of a prime in it.
* `Decimal.ofRat`: The text of a rational number, and whether it is exact.
-/

namespace ExactCalc

namespace Decimal

/-- The power of ten for a number of places. -/
def scale (places : Nat) : Nat := Nat.pow 10 (Word.count places)

/-- The text of an integer scaled by a number of places. -/
def ofScaled (n : Int) (places : Nat) : List Char :=
  let sign : List Char := if n < 0 then ['-'] else []
  let whole := (n.natAbs / scale places).repr.toList
  if places = 0 then sign ++ whole
  else
    let fraction := (n.natAbs % scale places).repr.toList
    sign ++ whole ++ '.' :: (List.replicate (places - fraction.length) '0' ++ fraction)

/-- A text without a given character at its end. -/
def dropTrailing (c : Char) (cs : List Char) : List Char :=
  (cs.reverse.dropWhile (· == c)).reverse

/-- A text with a point, without the zeros at its end and then without the
    point if it is left there. A negative zero loses its sign. -/
def trim (cs : List Char) : List Char :=
  if cs.contains '.' then
    let t := dropTrailing '.' (dropTrailing '0' cs)
    if t = ['-', '0'] then ['0'] else t
  else cs

/-- A rational number scaled by a number of places and cut off towards zero. -/
def scaled (q : Rat) (places : Nat) : Int :=
  (q.num * scale places).tdiv q.den

/-- A number without its factors `p`, and how many of them it had. -/
def divideOut (p n : Nat) : Nat × Nat :=
  if _h : 1 < p ∧ 0 < n ∧ n % p = 0 then
    let (rest, count) := divideOut p (n / p)
    (rest, count + 1)
  else (n, 0)
termination_by n
decreasing_by exact Nat.div_lt_self _h.2.1 _h.1

/-- How many places the decimal form of a number with this denominator takes, if
    it ends at all. -/
def places? (den : Nat) : Option Nat :=
  let (rest, twos) := divideOut 2 den
  let (rest, fives) := divideOut 5 rest
  if rest = 1 then some (max twos fives) else none

/-- The decimal text of a number with at most the given places, and whether it
    is exact. -/
def ofRat (q : Rat) (places : Nat) : List Char × Bool :=
  match places? q.den with
  | some n =>
    if n ≤ places then (trim (ofScaled (scaled q n) n), true)
    else (trim (ofScaled (scaled q places) places), false)
  | none => (trim (ofScaled (scaled q places) places), false)

end Decimal

end ExactCalc
