/-!
# Rational Numbers

What the calculator needs of rational numbers beyond their arithmetic: their
text, the size of their terms, and whole powers.

## Main definitions

* `Rational.text`: Numerator and denominator, the latter unless it is one.
* `Rational.bitLength`, `Rational.size`: The length of the terms in bits.
* `Rational.powInt`: A power with a whole exponent of either sign.
* `Rational.isWhole`: Whether the denominator is one.
-/

namespace ExactCalc

namespace Rational

/-- Whether the number is whole. -/
def isWhole (q : Rat) : Bool := q.den == 1

/-- The numerator, and the denominator after a slash unless it is one. -/
def text (q : Rat) : String :=
  if isWhole q then toString q.num else toString q.num ++ "/" ++ toString q.den

/-- How many binary digits a number has; zero has none. -/
def bitLength (n : Nat) : Nat :=
  if n = 0 then 0 else n.log2 + 1

/-- The length of the longer of the two terms, in bits. -/
def size (q : Rat) : Nat :=
  max (bitLength q.num.natAbs) (bitLength q.den)

/-- The power of a number, the exponent being any integer. A negative power of
    zero is zero, and callers exclude it. -/
def powInt (q : Rat) (n : Int) : Rat :=
  if n < 0 then Rat.inv (Rat.pow q n.natAbs) else Rat.pow q n.natAbs

end Rational

end ExactCalc
