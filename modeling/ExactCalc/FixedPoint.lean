import ExactCalc.Decimal
import ExactCalc.EvalError
import ExactCalc.Expr.Simplify

/-!
# Fixed-Point Values

The value of an expression as an integer scaled by a power of ten, every step
cut off towards zero.

The ratio of a circle's circumference to its diameter comes from two arctangent
series. Each stops at the first term that the scale cuts off to zero, which it
reaches because the powers in the denominators grow.

An exponent is simplified before it is read. Reading it may meet further
exponents, and `exponentHeight` counts how deep they can be nested; it bounds
the readings, so the value is defined by recursion on that count and on the
tree. Like the simplifier, reading an exponent breaks down at the least machine
word, and so does a constant or a root that has to carry more places than there
are sizes.

## Main definitions

* `FixedPoint.arctanInverse`, `FixedPoint.pi`: The series and the constant.
* `FixedPoint.sqrt`, `FixedPoint.rootAt`, `FixedPoint.sqrtRat`: Roots.
* `FixedPoint.power`: Powers by repeated squaring.
* `FixedPoint.valueWith`: The value of a tree, exponents being read by a given
  function.
* `FixedPoint.value`: The value of a tree.

## Theorems

* `valueWith_rat`, `valueWith_root`, `valueWith_add`, `valueWith_sub`, `valueWith_abs`: The
  value of a tree from those of its branches.
* `value_of_flat`: Without a power no exponent is read.
-/

namespace ExactCalc

namespace FixedPoint

/-- Places carried beyond those asked for. -/
def guardPlaces : Nat := 10

/-- The terms of the arctangent series of `1 / q` from number `k` on, whose
    power of `q` is given, every term being cut off at the scale and the signs
    alternating from plus. -/
def arctanTail (q scale k power : Nat) : Int :=
  let term := scale / (power * (2 * k + 1))
  if _h : 1 < q ∧ 0 < power ∧ 0 < term then
    term - arctanTail q scale (k + 1) (power * q * q)
  else 0
termination_by scale + 1 - power
decreasing_by
  obtain ⟨hq, hp, ht⟩ := _h
  have hle : power * (2 * k + 1) ≤ scale := by
    have := (Nat.div_pos_iff.mp ht).2
    exact this
  have h1 : power ≤ power * (2 * k + 1) := Nat.le_mul_of_pos_right power (by omega)
  have h2 : power * 1 < power * q := Nat.mul_lt_mul_of_pos_left hq hp
  have h3 : power * q ≤ power * q * q := Nat.le_mul_of_pos_right _ (by omega)
  omega

/-- The arctangent of `1 / q` at the given scale. -/
def arctanInverse (q scale : Nat) : Int := arctanTail q scale 0 q

/-- The ratio of a circle's circumference to its diameter, with guard places
    that are cut off at the end. -/
def pi (places : Nat) : Checked Int :=
  (Word.size (places + guardPlaces)).map fun carried =>
    let scale := Decimal.scale carried
    (16 * arctanInverse 5 scale - 4 * arctanInverse 239 scale).tdiv (Decimal.scale guardPlaces)

/-- The root of a scaled value. -/
def sqrt (places : Nat) (x : Int) : Except Stop Int :=
  if x < 0 then .error (.failure (.arithmetic .negativeRoot))
  else .ok (SquareRoot.floor (x.natAbs * Decimal.scale places))

/-- The root of a rational number that is not negative, cut off at a scale whose
    square is given. -/
def rootAt (square : Nat) (q : Rat) : Nat :=
  SquareRoot.floor (q.num.natAbs * square / q.den)

/-- The root of a rational number that is not negative, cut off at the scale. -/
def sqrtRat (places : Nat) (q : Rat) : Checked Int :=
  (Word.size (2 * places)).map fun twice => (rootAt (Decimal.scale twice) q : Int)

/-- The product of two scaled values. -/
def mul (places : Nat) (x y : Int) : Int := (x * y).tdiv (Decimal.scale places)

/-- The power of a scaled value by repeated squaring, times what has been
    gathered so far. -/
def powerFrom (places : Nat) (acc b : Int) (n : Nat) : Int :=
  if n = 0 then acc
  else
    let acc := if n % 2 = 1 then mul places acc b else acc
    if n / 2 = 0 then acc else powerFrom places acc (mul places b b) (n / 2)
termination_by n

/-- The whole power of a scaled value. -/
def power (places : Nat) (b : Int) (n : Int) : Except Stop Int :=
  let one : Int := Decimal.scale places
  let acc := powerFrom places one b n.natAbs
  if n < 0 then
    if acc = 0 then .error (.failure (.arithmetic .divisionByZero)) else .ok ((one * one).tdiv acc)
  else .ok acc

/-- A whole exponent of moderate size. -/
def moderate (n : Int) : Except Stop Int :=
  (Stop.ofChecked (Expr.wholeExponent n)).bind fun
    | some n => .ok n
    | none => .error (.failure .tooComplex)

/-- An exponent: a whole number, and whether half of it is meant. -/
structure Exponent where
  whole : Int
  halved : Bool
  deriving DecidableEq, Repr

/-- The exponent that a simplified tree stands for. One that is no number is
    read as a scaled value and must turn out whole. -/
def exponent (places : Nat) (read : Expr → Except Stop Int) (e : Expr) : Except Stop Exponent :=
  match e with
  | .rat q =>
    if q.den = 2 then (moderate q.num).map (⟨·, true⟩)
    else if Rational.isWhole q then (moderate q.num).map (⟨·, false⟩)
    else .error (.failure (.arithmetic .fractionalExponent))
  | _ =>
    match read e with
    | .error e => .error e
    | .ok n =>
      if n.tmod (Decimal.scale places) = 0 then
        (moderate (n.tdiv (Decimal.scale places))).map (⟨·, false⟩)
      else .error (.failure (.arithmetic .nonIntegerExponent))

/-- The whole power of a number, worked out exactly before it is cut off. -/
def powerRat (places : Nat) (q : Rat) (n : Int) : Except Stop Int :=
  if q = 0 ∧ n < 0 then .error (.failure (.arithmetic .divisionByZero))
  else if Rational.size q * n.natAbs > Expr.largestPowerSize then .error (.failure .tooComplex)
  else .ok (Decimal.scaled (Rational.powInt q n) places)

/-- The root of a tree: of a number it is cut off once only, of anything else
    the root of its value. -/
def rootOf (places : Nat) (number : Option Rat) (x : Except Stop Int) : Except Stop Int :=
  match number with
  | some q =>
    if q < 0 then .error (.failure (.arithmetic .negativeRoot))
    else Stop.ofChecked (sqrtRat places q)
  | none => x.bind (sqrt places)

/-- The power of a tree: of a number with a whole exponent it is cut off once
    only, of anything else the power of its value or of its root. -/
def powerOf (places : Nat) (number : Option Rat) (x : Except Stop Int) (n : Exponent) :
    Except Stop Int :=
  match number, n.halved with
  | some q, false => powerRat places q n.whole
  | _, halved =>
    x.bind fun x =>
      (if halved then sqrt places x else .ok x).bind fun x => power places x n.whole

/-- The quotient of two scaled values. -/
def div (places : Nat) (x y : Int) : Except Stop Int :=
  if y = 0 then .error (.failure (.arithmetic .divisionByZero))
  else .ok ((x * Decimal.scale places).tdiv y)

/-- The value of a tree at the given places, trees in exponents being read by
    `read`. -/
def valueWith (places : Nat) (read : Expr → Except Stop Int) : Expr → Except Stop Int
  | .var name => .error (.failure (.undefinedVariable name))
  | .rat q => .ok (Decimal.scaled q places)
  | .pi => Stop.ofChecked (pi places)
  | .add a b =>
    (valueWith places read a).bind fun x => (valueWith places read b).map fun y => x + y
  | .sub a b =>
    (valueWith places read a).bind fun x => (valueWith places read b).map fun y => x - y
  | .mul a b =>
    (valueWith places read a).bind fun x => (valueWith places read b).map fun y => mul places x y
  | .div a b =>
    (valueWith places read a).bind fun x => (valueWith places read b).bind fun y => div places x y
  | .abs x => (valueWith places read x).map fun n => n.natAbs
  | .sqrt x => rootOf places x.number? (valueWith places read x)
  | .pow a b =>
    (Stop.ofChecked b.simplify).bind fun b =>
      (exponent places read b).bind (powerOf places a.number? (valueWith places read a))

/-- How deep exponents are nested in exponents. -/
def exponentHeight : Expr → Nat
  | .rat _ | .pi | .var _ => 0
  | .sqrt x | .abs x => exponentHeight x
  | .add a b | .sub a b | .mul a b | .div a b => max (exponentHeight a) (exponentHeight b)
  | .pow a b => max (exponentHeight a) (exponentHeight b + 1)

/-- The value of a tree whose exponents are nested at most so deep. -/
def valueUpTo (places : Nat) : Nat → Expr → Except Stop Int
  | 0, e => valueWith places (fun _ => .error (.failure .tooComplex)) e
  | height + 1, e => valueWith places (valueUpTo places height) e

/-- The value of a tree at the given places. An evaluation that has been called
    off stops before its first step. -/
def value (places : Nat) (cancelled : Bool) (e : Expr) : Except Stop Int :=
  if cancelled then .error (.failure .interrupted) else valueUpTo places (exponentHeight e) e

section Values

variable {places : Nat} {read : Expr → Except Stop Int} {a b : Expr} {x y : Int}

/-- A number is cut off at the scale. -/
@[simp] theorem valueWith_rat (places : Nat) (read : Expr → Except Stop Int) (q : Rat) :
    valueWith places read (.rat q) = .ok (Decimal.scaled q places) := by
  rw [valueWith]

/-- So is the root of a number. -/
theorem valueWith_root (places : Nat) (read : Expr → Except Stop Int) {q : Rat} (hq : 0 ≤ q) :
    valueWith places read (.sqrt (.rat q)) = Stop.ofChecked (sqrtRat places q) := by
  rw [valueWith]
  exact if_neg (Rat.not_lt.mpr hq)

theorem valueWith_add (ha : valueWith places read a = .ok x)
    (hb : valueWith places read b = .ok y) :
    valueWith places read (.add a b) = .ok (x + y) := by
  rw [valueWith, ha, hb]
  rfl

theorem valueWith_sub (ha : valueWith places read a = .ok x)
    (hb : valueWith places read b = .ok y) :
    valueWith places read (.sub a b) = .ok (x - y) := by
  rw [valueWith, ha, hb]
  rfl

theorem valueWith_abs (ha : valueWith places read a = .ok x) :
    valueWith places read (.abs a) = .ok x.natAbs := by
  rw [valueWith, ha]
  rfl

end Values

/-- Without a power no exponent is read. -/
theorem value_of_flat (places : Nat) (e : Expr) (h : exponentHeight e = 0) :
    value places false e = valueWith places (fun _ => .error (.failure .tooComplex)) e := by
  rw [value, if_neg Bool.false_ne_true, h, valueUpTo]

end FixedPoint

end ExactCalc
