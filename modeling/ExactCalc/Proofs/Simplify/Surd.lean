import ExactCalc.Proofs.Simplify.NormalForm

/-!
# Surds

What a product of a rational number and a root is simplified to: a rational
coefficient and the root of a whole number, either of which may be missing.

A radicand that is the square of a rational number leaves no root. Any other is
multiplied with the square of its denominator, and square factors that are found
go into the coefficient; what is left is no square, so there is a root to keep.
Neither step changes the number, and its square is rational, so this can be said
without real numbers.

## Main definitions

* `Surd`: A coefficient and a radicand.
* `Surd.tree`: The simplified tree.
* `Surd.square`: The square of the number.
* `Surd.ofRoot`, `Surd.ofProduct`: What a root and its product with a number are
  simplified to.

## Theorems

* `square_ofProduct`: Simplifying keeps the number.
* `times_tree`, `root_eq_tree`: The combining functions of a product and a root.
* `simplify_product`: The simplified form of a product of a number and a root.
-/

namespace ExactCalc

/-- A rational number times the root of a natural number. A radicand of one is no
    root. -/
structure Surd where
  coefficient : Rat
  radicand : Nat
  deriving DecidableEq, Repr

namespace Surd

/-- What stands beside the coefficient. -/
def rest (s : Surd) : Option Expr :=
  if s.radicand = 1 then none else some (.sqrt (.rat s.radicand))

/-- The simplified tree of a surd. -/
def tree (s : Surd) : Expr := Expr.withCoefficient s.coefficient s.rest

/-- The square of the number that a surd stands for. -/
def square (s : Surd) : Rat := s.coefficient ^ 2 * s.radicand

/-- The surd times a number. -/
def scale (c : Rat) (s : Surd) : Surd := ⟨c * s.coefficient, s.radicand⟩

/-- The root of a number that is not negative. -/
def ofRoot (r : Rat) : Surd :=
  match SquareRoot.ofSquare? r with
  | some s => ⟨s, 1⟩
  | none =>
    let factors := SquareRoot.squareFactors (r.num.natAbs * r.den)
    ⟨mkRat factors.2 r.den, factors.1⟩

/-- A number times the root of another. -/
def ofProduct (c r : Rat) : Surd := (ofRoot r).scale c

section Values

variable {c r : Rat}

theorem square_scale (c : Rat) (s : Surd) : (s.scale c).square = c ^ 2 * s.square := by
  rw [square, square, scale, mul_pow, mul_assoc]

theorem square_ofRoot (hr : 0 ≤ r) : (ofRoot r).square = r := by
  rw [square, ofRoot]
  rcases hs : SquareRoot.ofSquare? r with _ | s
  · simp only
    rw [SquareRoot.factor_sq_mul hr]
  · simp only
    rw [Nat.cast_one, mul_one]
    exact (SquareRoot.ofSquare?_spec hs).2

theorem coefficient_ofRoot_nonneg (r : Rat) : 0 ≤ (ofRoot r).coefficient := by
  rw [ofRoot]
  rcases hs : SquareRoot.ofSquare? r with _ | s
  · simp only
    rw [Rat.mkRat_eq_div, Int.cast_natCast]
    positivity
  · exact (SquareRoot.ofSquare?_spec hs).1

/-- Simplifying a product keeps the number. -/
theorem square_ofProduct (c : Rat) (hr : 0 ≤ r) : (ofProduct c r).square = c ^ 2 * r := by
  rw [ofProduct, square_scale, square_ofRoot hr]

theorem coefficient_ofProduct_nonneg (hc : 0 ≤ c) (r : Rat) : 0 ≤ (ofProduct c r).coefficient :=
  mul_nonneg hc (coefficient_ofRoot_nonneg r)

end Values

section Trees

variable {c r : Rat} (s : Surd)

/-- Without a coefficient or without a root the tree is a number. -/
theorem tree_of_number (h : s.coefficient = 0 ∨ s.radicand = 1) : s.tree = .rat s.coefficient := by
  rw [tree, rest]
  by_cases hone : s.radicand = 1
  · rw [if_pos hone]
    rfl
  · have hzero : s.coefficient = 0 := h.resolve_right hone
    rw [if_neg hone, Expr.withCoefficient_of_bare (Expr.bare_sqrt _), if_pos hzero, hzero]

/-- With both the tree is a root or a number times a root. -/
theorem tree_of_root (h0 : s.coefficient ≠ 0) (h1 : s.radicand ≠ 1) :
    s.tree = if s.coefficient = 1 then .sqrt (.rat s.radicand)
      else .mul (.rat s.coefficient) (.sqrt (.rat s.radicand)) := by
  rw [tree, rest, if_neg h1, Expr.withCoefficient_of_bare (Expr.bare_sqrt _), if_neg h0]

/-- A number times a surd is the surd scaled. -/
theorem times_tree (c : Rat) : Expr.times (.rat c) s.tree = (s.scale c).tree := by
  rw [tree, tree, rest, rest, scale]
  by_cases hone : s.radicand = 1
  · simp only [hone, if_true]
    rfl
  · simp only [hone, if_false]
    exact Expr.times_withCoefficient c s.coefficient (Expr.bare_sqrt _)

/-- The root of a number that is not negative is the tree of a surd. -/
theorem root_eq_tree (hr : 0 ≤ r) : Expr.root (.rat r) = (ofRoot r).tree := by
  rw [Expr.root, tree, rest, ofRoot]
  rcases hs : SquareRoot.ofSquare? r with _ | s
  · -- No root is left out, since what is left of no square is no square.
    have hne : (SquareRoot.squareFactors (r.num.natAbs * r.den)).1 ≠ 1 := by
      intro hone
      refine SquareRoot.not_isSquare_squareFactors hr (SquareRoot.ofSquare?_eq_none.mp hs) ?_
      rw [hone]
      exact IsSquare.one
    simp only
    rw [if_neg (not_lt.mpr hr), if_neg hne, Expr.reducedRoot]
    simp only
    rw [Rat.mkRat_one, Int.cast_natCast]
  · rfl

/-- The simplified form of a product of a number and a root. -/
theorem simplify_product {a b : Expr} (ha : a.simplify = .ok (.rat c))
    (hb : b.simplify = .ok (.rat r)) (hr : 0 ≤ r) :
    (Expr.mul a (.sqrt b)).simplify = .ok (ofProduct c r).tree := by
  rw [Expr.simplify_eq_ok] at ha hb ⊢
  have hproduct := ha.mul hb.sqrt
  rwa [root_eq_tree hr, times_tree] at hproduct

end Trees

end Surd

end ExactCalc
