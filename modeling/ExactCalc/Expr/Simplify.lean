import ExactCalc.Expr
import ExactCalc.SquareRoot
import ExactCalc.Word

/-!
# Simplification

Local simplification of an expression, from the leaves up.

Every operation has a combining function that takes operands already simplified
and gives a simplified result. A product keeps its rational coefficient as a
single factor on the left, and that factor is absent when it is one; a root
keeps no square factor up to a bound; a power with a whole exponent is worked
out unless it would grow too large. Nothing is assumed about a variable.

An exponent is read as a machine word, and the least word has no modulus to be
compared with the bound. A tree with a power of that exponent is not simplified:
the calculation breaks down.

A division by zero is kept, but a product with zero, a zeroth power or a
difference of equal terms around it would lose it. `dividesByZero` finds such a
division and is to be asked before.

## Main definitions

* `Expr.coefficient`, `Expr.withCoefficient`: A tree as a rational times the
  rest, taken apart and put together.
* `Expr.wholeExponent`, `Expr.exponent`: The exponents that are worked out.
* `Expr.plus`, `minus`, `times`, `quotient`, `raise`, `root`, `modulus`: The
  combining functions.
* `Expr.simplify`: The simplified form of a whole tree.
* `Expr.dividesByZero`: Whether an exact division by zero occurs in a tree.

## Theorems

* `wholeExponent_of_le`, `wholeExponent_least`: Moderate exponents, and the one
  that overflows.
* `simplify_rat`: A number is simple.
-/

namespace ExactCalc

namespace Expr

/-- The largest whole exponent, by size, that is worked out exactly. -/
def largestExponent : Nat := 10000

/-- The largest size in bits of a power that is worked out exactly. -/
def largestPowerSize : Nat := 1000000

/-- A whole number as an exponent, if it is a machine word of moderate size. -/
def wholeExponent (n : Int) : Checked (Option Int) :=
  match Word.signed? n with
  | none => .ok none
  | some word => do
    let size ← Word.modulus word
    .ok (if size ≤ largestExponent then some word else none)

/-- The whole exponent a simplified tree stands for, if it is one of moderate
    size. -/
def exponent : Expr → Checked (Option Int)
  | rat q => if Rational.isWhole q then wholeExponent q.num else .ok none
  | _ => .ok none

/-- Whether the power of a number is defined and of moderate size. -/
def powerFits (q : Rat) (n : Int) : Bool :=
  Rational.size q * n.natAbs ≤ largestPowerSize && !(q == 0 && n < 0)

/-- A tree as a rational coefficient times the rest, if there is a rest. -/
def coefficient : Expr → Rat × Option Expr
  | rat q => (q, none)
  | mul (rat q) x => (q, some x)
  | e => (1, some e)

/-- A rational times the rest, a coefficient of the rest being merged in and a
    factor of zero or one dropped. -/
def withCoefficient (c : Rat) (rest : Option Expr) : Expr :=
  match rest with
  | none => rat c
  | some e =>
    match coefficient e with
    | (c', none) => rat (c * c')
    | (c', some x) => if c * c' = 0 then rat 0 else if c * c' = 1 then x else mul (rat (c * c')) x

/-- The root of a positive number that is no square: the denominator is made
    rational, and square factors are taken out. -/
def reducedRoot (q : Rat) : Expr :=
  let (n, k) := SquareRoot.squareFactors (q.num.natAbs * q.den)
  withCoefficient (mkRat k q.den) (some (sqrt (rat (mkRat n 1))))

/-- The root of a simplified tree. -/
def root : Expr → Expr
  | rat q =>
    match SquareRoot.ofSquare? q with
    | some s => rat s
    | none => if q < 0 then sqrt (rat q) else reducedRoot q
  | x => sqrt x

/-- The product of two simplified trees without coefficients. -/
def product : Expr → Expr → Expr
  | sqrt u, sqrt v =>
    if u = v then u
    else
      match u, v with
      | rat p, rat q => if p < 0 ∨ q < 0 then mul (sqrt u) (sqrt v) else root (rat (p * q))
      | _, _ => mul (sqrt u) (sqrt v)
  | x, y => mul x y

/-- The sum of two simplified trees. -/
def plus (a b : Expr) : Expr :=
  match a, b with
  | rat p, rat q => rat (p + q)
  | _, _ => if a.isZero then b else if b.isZero then a else add a b

/-- The difference of two simplified trees. A difference from zero stays, as the
    sign of the other tree. -/
def minus (a b : Expr) : Expr :=
  if a = b then rat 0
  else
    match a, b with
    | rat p, rat q => rat (p - q)
    | _, _ => if b.isZero then a else sub a b

/-- The product of two simplified trees. -/
def times (a b : Expr) : Expr :=
  let (p, x) := coefficient a
  let (q, y) := coefficient b
  let rest := match x, y with
    | none, none => none
    | some x, none => some x
    | none, some y => some y
    | some x, some y => some (product x y)
  withCoefficient (p * q) rest

/-- The quotient of two simplified trees that no rule for roots applies to. -/
def plainQuotient (a b : Expr) : Expr :=
  if a = b ∧ !a.isRat ∧ !a.hasVariable then rat 1
  else
    match a, b with
    | _, rat q => withCoefficient q.inv (some a)
    | rat p, sqrt (rat n) =>
      if 0 < n ∧ Rational.isWhole n then times (rat (p / n)) (root (rat n)) else div a b
    | _, _ => div a b

/-- The quotient of two simplified trees. -/
def quotient (a b : Expr) : Expr :=
  if b.isZero then div a b
  else
    match a, b with
    | sqrt (rat p), sqrt (rat q) =>
      if 0 < p ∧ 0 < q then root (rat (p / q)) else plainQuotient a b
    | _, _ => plainQuotient a b

/-- The whole power of a simplified tree: a coefficient is raised on its own, and
    an even power undoes a root. -/
def raiseInt (base : Expr) (n : Int) : Expr :=
  if n = 0 then rat 1
  else if n = 1 then base
  else
    match base with
    | rat q => if powerFits q n then rat (Rational.powInt q n) else pow base (rat (mkRat n 1))
    | mul (rat c) x =>
      if powerFits c n then times (rat (Rational.powInt c n)) (raiseInt x n)
      else pow base (rat (mkRat n 1))
    | sqrt x => if n % 2 = 0 then raiseInt x (n / 2) else pow base (rat (mkRat n 1))
    | _ => pow base (rat (mkRat n 1))

/-- The power of two simplified trees. -/
def raise (base exponent : Expr) : Checked Expr := do
  match ← exponent.exponent with
  | some n => .ok (raiseInt base n)
  | none => .ok (pow base exponent)

/-- The modulus of a simplified tree. -/
def modulus : Expr → Expr
  | rat q => rat (if q < 0 then -q else q)
  | pi => pi
  | sqrt x => sqrt x
  | abs x => abs x
  | x => abs x

/-- Simplifies a tree from the leaves up. -/
def simplify : Expr → Checked Expr
  | rat q => .ok (rat q)
  | pi => .ok pi
  | var name => .ok (var name)
  | sqrt x => do .ok (root (← x.simplify))
  | abs x => do .ok (modulus (← x.simplify))
  | pow a b => do raise (← a.simplify) (← b.simplify)
  | add a b => do .ok (plus (← a.simplify) (← b.simplify))
  | sub a b => do .ok (minus (← a.simplify) (← b.simplify))
  | mul a b => do .ok (times (← a.simplify) (← b.simplify))
  | div a b => do .ok (quotient (← a.simplify) (← b.simplify))

/-- Whether a division by exact zero, or a negative power of it, occurs anywhere
    in a tree. What has been found ends the search. -/
def dividesByZero : Expr → Checked Bool
  | rat _ | pi | var _ => .ok false
  | sqrt x | abs x => x.dividesByZero
  | add a b | sub a b | mul a b => a.dividesByZero <||> b.dividesByZero
  | div a b => a.dividesByZero <||> b.dividesByZero <||> do .ok (← b.simplify).isZero
  | pow a b => a.dividesByZero <||> b.dividesByZero <||> do
    let n ← (← b.simplify).exponent
    if n.any (· < 0) then .ok (← a.simplify).isZero else .ok false

theorem wholeExponent_of_le {n : Int} (h : n.natAbs ≤ largestExponent) :
    wholeExponent n = .ok (some n) := by
  have hword : Word.signed? n = some n :=
    Word.signed?_eq_some.mpr ⟨rfl, by unfold Word.least; unfold largestExponent at h; omega,
      by unfold Word.greatest; unfold largestExponent at h; omega⟩
  have hleast : n ≠ Word.least := by unfold Word.least; unfold largestExponent at h; omega
  simp only [wholeExponent, hword, Word.modulus_of_ne_least hleast]
  exact congrArg Except.ok (if_pos h)

@[simp] theorem wholeExponent_least : wholeExponent Word.least = .error .modulus := rfl

/-- A number is simple. -/
@[simp] theorem simplify_rat (q : Rat) : simplify (rat q) = .ok (rat q) := rfl

end Expr

end ExactCalc
