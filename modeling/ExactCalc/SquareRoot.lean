import ExactCalc.Rational

/-!
# Square Roots

The whole part of a square root, found by Newton's iteration, and what follows
from it: the exact root of a rational number that has one, and the square
factors that can be taken out of a root.

The iteration starts above the root, at a power of two, and goes on for as long
as it goes down. Where it stops going down it has come to the whole part of the
root or to the number above it, so its last number is put right by steps of one.

## Main definitions

* `SquareRoot.climb`, `SquareRoot.retreat`: Steps of one towards the root, from
  below and from above.
* `SquareRoot.descend`: Newton's iteration from a given start.
* `SquareRoot.floor`: The whole part of the square root of a natural number.
* `SquareRoot.ofSquare?`: The rational root of a rational number.
* `SquareRoot.stripSquare`, `SquareRoot.squareFactors`: A number as a square
  times what is left.

## Theorems

* `stripSquare_spec`: Taking out square factors keeps the number.
-/

namespace ExactCalc

namespace SquareRoot

/-- Goes up from `z` for as long as the square of the next number is no greater
    than `n`. -/
def climb (n z : Nat) : Nat :=
  if (z + 1) * (z + 1) ≤ n then climb n (z + 1) else z
termination_by n - z
decreasing_by
  rename_i hle
  have hself : z + 1 ≤ (z + 1) * (z + 1) := Nat.le_mul_self (z + 1)
  omega

/-- Goes down from `z` for as long as its square is greater than `n`. -/
def retreat (n z : Nat) : Nat :=
  if n < z * z then retreat n (z - 1) else z
termination_by z
decreasing_by
  rename_i hlt
  have hz : z ≠ 0 := fun h => Nat.not_lt_zero n (by rwa [h] at hlt)
  omega

/-- Newton's iteration for the root of `n`, from the guess `y`, for as long as
    it goes down. The number that does not go down is put right. -/
def descend (n y : Nat) : Nat :=
  let next := (y + n / y) / 2
  if next < y then descend n next else retreat n (climb n next)
termination_by y

/-- A power of two above the square root of `n`. -/
def startGuess (n : Nat) : Nat :=
  Nat.pow 2 ((Rational.bitLength n + 1) / 2)

/-- The whole part of the square root. -/
def floor (n : Nat) : Nat :=
  if n = 0 then 0 else descend n (startGuess n)

/-- The root of a natural number that is a square. -/
def natOfSquare? (n : Nat) : Option Nat :=
  let s := floor n
  if s * s = n then some s else none

/-- The non-negative root of a rational number that is the square of one. -/
def ofSquare? (q : Rat) : Option Rat :=
  if q.num < 0 then none
  else
    match natOfSquare? q.num.natAbs, natOfSquare? q.den with
    | some n, some d => some (mkRat n d)
    | _, _ => none

/-- The largest factor whose square is looked for in a radicand. -/
def largestFactor : Nat := 1000

/-- Takes the square of `f` out of `n` as often as it divides, multiplying `k`
    by `f` each time. -/
def stripSquare (f n k : Nat) : Nat × Nat :=
  if _h : 1 < f ∧ 0 < n ∧ n % (f * f) = 0 then stripSquare f (n / (f * f)) (k * f) else (n, k)
termination_by n
decreasing_by
  have hf : 1 * 1 < f * f := Nat.mul_lt_mul_of_lt_of_lt _h.1 _h.1
  exact Nat.div_lt_self _h.2.1 (by omega)

/-- A number without its square factors up to the largest one looked for, and
    the root of what was taken out. -/
def squareFactors (n : Nat) : Nat × Nat :=
  (List.range' 2 (largestFactor - 1)).foldl (fun (m, k) f => stripSquare f m k) (n, 1)

/-- Taking out square factors keeps the number. -/
theorem stripSquare_spec (f n k : Nat) :
    (stripSquare f n k).1 * ((stripSquare f n k).2 * (stripSquare f n k).2) = n * (k * k) := by
  fun_induction stripSquare f n k with
  | case1 n k h ih =>
    rw [ih]
    have hdvd : f * f * (n / (f * f)) = n := Nat.mul_div_cancel' (Nat.dvd_of_mod_eq_zero h.2.2)
    calc n / (f * f) * (k * f * (k * f))
        = f * f * (n / (f * f)) * (k * k) := by
          ac_rfl
      _ = n * (k * k) := by rw [hdvd]
  | case2 => rfl

end SquareRoot

end ExactCalc
