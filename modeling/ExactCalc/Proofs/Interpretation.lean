import ExactCalc.Expr
import Mathlib.Algebra.Order.Field.Basic
import Mathlib.Data.Rat.Cast.Order

/-!
# Interpretations of an Expression

What an expression means once its symbols stand for something.

An expression knows nothing of real numbers. Its rationals, sums, differences
and products mean something in every field; the ratio `π`, the variables, the
roots, the moduli and the powers mean whatever an interpretation says. A
division means the division of the field except by zero, where the field has
nothing to offer and the interpretation fills the gap; only the sign of the
dividend is asked to pass through that gap, since a text such as `-x/y` can be
read with the sign inside or outside.

An ordered field with square roots has an interpretation of its own, in which
a modulus is the absolute value and a power with a whole exponent is a product
of equal factors. There an expression can also fail to mean anything, and
`Denotes` holds of an expression and a number when the expression is defined
and that number is its value.

## Main definitions

* `Interpretation`: What the symbols of an expression stand for in a field.
* `Interpretation.value`: The number an expression stands for.
* `Rooted`: An ordered field with square roots, a circle ratio and variables.
* `Rooted.interpretation`: The interpretation it gives.
* `Rooted.Defined`: No division by zero and no root of a negative number occurs.
* `Rooted.Denotes`: An expression is defined and has a given value.

## Theorems

* `power_intCast`: A power with a whole exponent is the power of the field.
* `sqrt_eq`: A square root is the only non-negative number of its square.
-/

namespace ExactCalc

universe u

/-- What the symbols of an expression stand for. -/
structure Interpretation (K : Type u) [Neg K] where
  pi : K
  named : String → K
  sqrt : K → K
  abs : K → K
  power : K → K → K
  /-- What a division by zero gives, by its dividend. -/
  overZero : K → K
  overZero_neg : ∀ x, overZero (-x) = -overZero x

namespace Interpretation

variable {K : Type u} [Field K]

open Classical in
/-- The quotient of two numbers. -/
noncomputable def divide (I : Interpretation K) (x y : K) : K :=
  if y = 0 then I.overZero x else x / y

/-- The number an expression stands for. -/
noncomputable def value (I : Interpretation K) : Expr → K
  | .rat q => q
  | .pi => I.pi
  | .var name => I.named name
  | .sqrt x => I.sqrt (I.value x)
  | .abs x => I.abs (I.value x)
  | .pow a b => I.power (I.value a) (I.value b)
  | .add a b => I.value a + I.value b
  | .sub a b => I.value a - I.value b
  | .mul a b => I.value a * I.value b
  | .div a b => I.divide (I.value a) (I.value b)

theorem divide_of_ne (I : Interpretation K) (x : K) {y : K} (hy : y ≠ 0) :
    I.divide x y = x / y := by
  rw [divide, if_neg hy]

/-- The sign of a dividend passes through every division. -/
@[simp] theorem divide_neg (I : Interpretation K) (x y : K) : I.divide (-x) y = -I.divide x y := by
  unfold divide
  by_cases hy : y = 0
  · rw [if_pos hy, if_pos hy, I.overZero_neg]
  · rw [if_neg hy, if_neg hy, neg_div]

end Interpretation

/-- An ordered field in which every non-negative number has a square root, with
    a positive number for `π` and any numbers for the variables. -/
structure Rooted (K : Type u) [Field K] [LinearOrder K] where
  sqrt : K → K
  sqrt_nonneg : ∀ x, 0 ≤ x → 0 ≤ sqrt x
  sq_sqrt : ∀ x, 0 ≤ x → sqrt x ^ 2 = x
  pi : K
  pi_pos : 0 < pi
  named : String → K
  /-- A power whose exponent is not a whole number. -/
  irregular : K → K → K

namespace Rooted

variable {K : Type u} [Field K] [LinearOrder K]

open Classical in
/-- A power: by repeated multiplication if the exponent is a whole number. -/
noncomputable def power (R : Rooted K) (x y : K) : K :=
  if h : ∃ n : ℤ, y = n then x ^ h.choose else R.irregular x y

/-- The interpretation in an ordered field with square roots. -/
noncomputable def interpretation (R : Rooted K) : Interpretation K where
  pi := R.pi
  named := R.named
  sqrt := R.sqrt
  abs x := |x|
  power := R.power
  overZero _ := 0
  overZero_neg _ := neg_zero.symm

/-- The number an expression stands for. -/
noncomputable def value (R : Rooted K) (e : Expr) : K := R.interpretation.value e

/-- Whether an expression stands for a number at all: no denominator is zero, no
    radicand is negative, and no negative whole power of zero occurs. -/
def Defined (R : Rooted K) : Expr → Prop
  | .rat _ | .pi | .var _ => True
  | .sqrt x => R.Defined x ∧ 0 ≤ R.value x
  | .abs x => R.Defined x
  | .pow a b =>
    R.Defined a ∧ R.Defined b ∧ ∀ n : ℤ, R.value b = n → n < 0 → R.value a ≠ 0
  | .add a b | .sub a b | .mul a b => R.Defined a ∧ R.Defined b
  | .div a b => R.Defined a ∧ R.Defined b ∧ R.value b ≠ 0

/-- An expression is defined and stands for a given number. -/
structure Denotes (R : Rooted K) (e : Expr) (v : K) : Prop where
  defined : R.Defined e
  value_eq : R.value e = v

variable [IsStrictOrderedRing K] (R : Rooted K)

/-- A power with a whole exponent is the power of the field. -/
@[simp] theorem power_intCast (x : K) (n : ℤ) : R.power x n = x ^ n := by
  have h : ∃ m : ℤ, (n : K) = m := ⟨n, rfl⟩
  rw [power, dif_pos h]
  -- The exponent that was chosen is the given one, whole numbers staying apart in the field.
  congr 1
  exact_mod_cast h.choose_spec.symm

/-- A square root is the only non-negative number of its square. -/
theorem sqrt_eq {x s : K} (hs : 0 ≤ s) (h : s ^ 2 = x) : R.sqrt x = s := by
  have hx : 0 ≤ x := h ▸ sq_nonneg s
  have hsq : R.sqrt x ^ 2 = s ^ 2 := by rw [R.sq_sqrt x hx, h]
  exact (pow_left_inj₀ (R.sqrt_nonneg x hx) hs two_ne_zero).mp hsq

end Rooted

end ExactCalc
