import ExactCalc.Proofs.Interpretation
import ExactCalc.Proofs.Simplify.Steps
import ExactCalc.Proofs.SquareRoot
import Mathlib.Analysis.SpecialFunctions.Pow.Real
import Mathlib.Data.Rat.Cast.Lemmas
import Mathlib.Tactic.FieldSimp

/-!
# Simplification Keeps the Meaning

A simplified expression is defined wherever the expression is, and has the same
value there. An expression is simplified unless a power in it overflows.

The statement is about an ordered field with square roots, because the rules
need both: `√u·√v = √(uv)` holds only of numbers that are not negative, and a
root is found by its sign and its square. Definedness has to be carried along
with the value. A rule such as `(√x)²ᵏ = xᵏ` would be wrong of a negative `x`,
and what rules that out is not the shape of the tree but the fact that the root
in it is defined.

There is one lemma for every combining function, saying that it takes operands
that denote numbers to a result that denotes the combined number. The
simplifier applies a combining function at every node, so the result follows by
induction on the steps it goes through. The rules that take a rational coefficient apart and put
it together again all go through `coefficient` and `withCoefficient`, whose
lemmas are stated first.

## Main definitions

* `Rooted.DenotesRest`: What the rest of a tree beside its coefficient denotes.

## Theorems

* `withCoefficient_denotes`: Merging a coefficient multiplies by it.
* `reducedRoot_denotes`: Taking out square factors keeps the root.
* `product_denotes`, `plus_denotes`, `minus_denotes`, `times_denotes`,
  `quotient_denotes`, `raise_denotes`, `root_denotes`, `modulus_denotes`: The
  combining functions.
* `denotes_of_simplifies`, `simplify_keeps_meaning`: The simplified form of an
  expression.
-/

namespace ExactCalc

universe u

namespace Rooted

variable {K : Type u} [Field K] [LinearOrder K] (R : Rooted K)

section Denoting

variable {R} {a b x : Expr} {u v : K}

theorem denotes_rat (q : Rat) : R.Denotes (.rat q) q := ⟨trivial, rfl⟩

theorem denotes_zero : R.Denotes (.rat 0) 0 := ⟨trivial, Rat.cast_zero⟩

theorem denotes_one : R.Denotes (.rat 1) 1 := ⟨trivial, Rat.cast_one⟩

theorem Denotes.unique (h : R.Denotes x u) (h' : R.Denotes x v) : u = v :=
  h.value_eq.symm.trans h'.value_eq

theorem Denotes.sqrt (h : R.Denotes x u) (hu : 0 ≤ u) : R.Denotes (.sqrt x) (R.sqrt u) := by
  refine ⟨⟨h.defined, ?_⟩, congrArg R.sqrt h.value_eq⟩
  rw [h.value_eq]
  exact hu

theorem Denotes.abs (h : R.Denotes x u) : R.Denotes (.abs x) |u| :=
  ⟨h.defined, congrArg (|·|) h.value_eq⟩

theorem Denotes.add (ha : R.Denotes a u) (hb : R.Denotes b v) :
    R.Denotes (.add a b) (u + v) :=
  ⟨⟨ha.defined, hb.defined⟩, congrArg₂ (· + ·) ha.value_eq hb.value_eq⟩

theorem Denotes.sub (ha : R.Denotes a u) (hb : R.Denotes b v) :
    R.Denotes (.sub a b) (u - v) :=
  ⟨⟨ha.defined, hb.defined⟩, congrArg₂ (· - ·) ha.value_eq hb.value_eq⟩

theorem Denotes.mul (ha : R.Denotes a u) (hb : R.Denotes b v) :
    R.Denotes (.mul a b) (u * v) :=
  ⟨⟨ha.defined, hb.defined⟩, congrArg₂ (· * ·) ha.value_eq hb.value_eq⟩

theorem Denotes.div (ha : R.Denotes a u) (hb : R.Denotes b v) (hv : v ≠ 0) :
    R.Denotes (.div a b) (u / v) := by
  refine ⟨⟨ha.defined, hb.defined, by rw [hb.value_eq]; exact hv⟩, ?_⟩
  rw [← R.interpretation.divide_of_ne u hv]
  exact congrArg₂ R.interpretation.divide ha.value_eq hb.value_eq

theorem Denotes.pow (ha : R.Denotes a u) (hb : R.Denotes b v)
    (h : ∀ n : ℤ, v = n → n < 0 → u ≠ 0) : R.Denotes (.pow a b) (R.power u v) := by
  refine ⟨⟨ha.defined, hb.defined, ?_⟩, congrArg₂ R.power ha.value_eq hb.value_eq⟩
  rw [ha.value_eq, hb.value_eq]
  exact h

theorem Denotes.of_mul (h : R.Denotes (.mul a b) v) :
    ∃ p q, R.Denotes a p ∧ R.Denotes b q ∧ v = p * q :=
  ⟨R.value a, R.value b, ⟨h.defined.1, rfl⟩, ⟨h.defined.2, rfl⟩, h.value_eq.symm⟩

theorem Denotes.of_sqrt (h : R.Denotes (.sqrt x) v) :
    ∃ p, R.Denotes x p ∧ 0 ≤ p ∧ v = R.sqrt p :=
  ⟨R.value x, ⟨h.defined.1, rfl⟩, h.defined.2, h.value_eq.symm⟩

end Denoting

/-- What the rest of a tree beside its coefficient denotes: one, if there is no
    rest. -/
def DenotesRest : Option Expr → K → Prop
  | none, v => v = 1
  | some x, v => R.Denotes x v

section Combining

variable {R} {a b x : Expr} {u v : K}

/-- Taking a coefficient off a tree divides what it denotes by it. -/
theorem coefficient_denotes (h : R.Denotes x v) :
    ∃ w, R.DenotesRest (Expr.coefficient x).2 w ∧ v = (Expr.coefficient x).1 * w := by
  unfold Expr.coefficient
  split
  · rename_i q
    exact ⟨1, rfl, by rw [mul_one]; exact h.unique (denotes_rat q)⟩
  · rename_i q y
    rcases h.of_mul with ⟨p, w, hp, hw, rfl⟩
    exact ⟨w, hw, by rw [hp.unique (denotes_rat q)]⟩
  · exact ⟨v, h, by rw [Rat.cast_one, one_mul]⟩

theorem eq_zero_of_isZero (h : R.Denotes x v) (hx : x.isZero = true) : v = 0 := by
  rcases Expr.isZero_iff.mp hx with rfl
  exact h.unique denotes_zero

variable [IsStrictOrderedRing K]

/-- Merging a coefficient into a tree multiplies what it denotes. -/
theorem withCoefficient_denotes (c : Rat) {rest : Option Expr} (h : R.DenotesRest rest v) :
    R.Denotes (Expr.withCoefficient c rest) (c * v) := by
  unfold Expr.withCoefficient
  rcases rest with _ | x
  · have hv : v = 1 := h
    rw [hv, mul_one]
    exact denotes_rat c
  rcases coefficient_denotes (x := x) h with ⟨w, hw, rfl⟩
  rcases hx : Expr.coefficient x with ⟨d, _ | y⟩
  · have hw1 : w = 1 := by rwa [hx] at hw
    simp only [hx, hw1, mul_one]
    rw [← Rat.cast_mul]
    exact denotes_rat (c * d)
  · have hy : R.Denotes y w := by rwa [hx] at hw
    simp only [hx]
    rw [← mul_assoc, ← Rat.cast_mul]
    by_cases h0 : c * d = 0
    · rw [if_pos h0, h0, Rat.cast_zero, zero_mul]
      exact denotes_zero
    by_cases h1 : c * d = 1
    · rw [if_neg h0, if_pos h1, h1, Rat.cast_one, one_mul]
      exact hy
    · rw [if_neg h0, if_neg h1]
      exact (denotes_rat (c * d)).mul hy

theorem cast_mkRat_one (n : Int) : ((mkRat n 1 : Rat) : K) = n := by
  rw [Rat.mkRat_eq_div]
  push_cast
  rw [div_one]

/-- Taking square factors out of a radicand keeps the root. -/
theorem reducedRoot_denotes (R : Rooted K) (q : Rat) (hq : 0 ≤ q) :
    R.Denotes (Expr.reducedRoot q) (R.sqrt q) := by
  unfold Expr.reducedRoot
  have hsq := SquareRoot.factor_sq_mul hq
  rcases hnk : SquareRoot.squareFactors (q.num.natAbs * q.den) with ⟨n, k⟩
  rw [hnk] at hsq
  simp only at hsq ⊢
  have hroot : R.Denotes (.rat (mkRat n 1)) (n : K) := by
    have hn : ((mkRat n 1 : Rat) : K) = n := (cast_mkRat_one n).trans (Int.cast_natCast n)
    rw [← hn]
    exact denotes_rat _
  have hrest : R.DenotesRest (some (.sqrt (.rat (mkRat n 1)))) (R.sqrt n) :=
    hroot.sqrt (Nat.cast_nonneg n)
  have hpart := withCoefficient_denotes (mkRat k q.den) hrest
  have hn0 := R.sqrt_nonneg (n : K) (Nat.cast_nonneg n)
  have hk : (0 : K) ≤ (mkRat k q.den : Rat) := by
    rw [Rat.mkRat_eq_div]
    push_cast
    positivity
  -- Both numbers are non-negative, so comparing their squares is enough.
  have heq : R.sqrt q = (mkRat k q.den : Rat) * R.sqrt n := by
    refine R.sqrt_eq (mul_nonneg hk hn0) ?_
    rw [mul_pow, R.sq_sqrt (n : K) (Nat.cast_nonneg n)]
    exact_mod_cast congrArg (Rat.cast : Rat → K) hsq
  rw [heq]
  exact hpart

theorem root_denotes (h : R.Denotes x v) (hv : 0 ≤ v) :
    R.Denotes (Expr.root x) (R.sqrt v) := by
  cases x with
  | rat q =>
      have hq : v = q := h.unique (denotes_rat q)
      have hpos : 0 ≤ q := by
        rw [hq] at hv
        exact_mod_cast hv
      rw [Expr.root]
      rcases hs : SquareRoot.ofSquare? q with _ | s
      · simp only
        rw [if_neg (not_lt.mpr hpos), hq]
        exact reducedRoot_denotes R q hpos
      · rcases SquareRoot.ofSquare?_spec hs with ⟨hs0, hsq⟩
        have hroot : R.sqrt v = s := by
          rw [hq]
          refine R.sqrt_eq (by exact_mod_cast hs0) ?_
          rw [← Rat.cast_pow, hsq]
        simp only
        rw [hroot]
        exact denotes_rat s
  | _ => exact h.sqrt hv

theorem sqrt_mul_sqrt (R : Rooted K) (hu : 0 ≤ u) (hv : 0 ≤ v) :
    R.sqrt u * R.sqrt v = R.sqrt (u * v) := by
  refine (R.sqrt_eq (mul_nonneg (R.sqrt_nonneg u hu) (R.sqrt_nonneg v hv)) ?_).symm
  rw [mul_pow, R.sq_sqrt u hu, R.sq_sqrt v hv]

theorem product_denotes (ha : R.Denotes a u) (hb : R.Denotes b v) :
    R.Denotes (Expr.product a b) (u * v) := by
  unfold Expr.product
  split
  · rename_i x y
    rcases ha.of_sqrt with ⟨p, hp, hp0, rfl⟩
    rcases hb.of_sqrt with ⟨q, hq, hq0, rfl⟩
    -- A root times itself is the radicand, which no root denotes if it is negative.
    by_cases hxy : x = y
    · subst hxy
      rw [if_pos rfl, hq.unique hp, ← pow_two, R.sq_sqrt p hp0]
      exact hp
    rw [if_neg hxy]
    split
    · rename_i r s
      have hr : p = r := hp.unique (denotes_rat r)
      have hs : q = s := hq.unique (denotes_rat s)
      -- The roots are defined, so the rule's guard against negative numbers never bites.
      have hneg : ¬(r < 0 ∨ s < 0) := by
        rw [hr] at hp0
        rw [hs] at hq0
        exact not_or.mpr ⟨not_lt.mpr (by exact_mod_cast hp0), not_lt.mpr (by exact_mod_cast hq0)⟩
      rw [if_neg hneg, sqrt_mul_sqrt R hp0 hq0]
      refine root_denotes ?_ (mul_nonneg hp0 hq0)
      rw [hr, hs, ← Rat.cast_mul]
      exact denotes_rat (r * s)
    · exact ha.mul hb
  · exact ha.mul hb

theorem plus_denotes (ha : R.Denotes a u) (hb : R.Denotes b v) :
    R.Denotes (Expr.plus a b) (u + v) := by
  unfold Expr.plus
  split
  · rename_i p q
    rw [ha.unique (denotes_rat p), hb.unique (denotes_rat q), ← Rat.cast_add]
    exact denotes_rat (p + q)
  by_cases ha0 : a.isZero = true
  · rw [if_pos ha0, eq_zero_of_isZero ha ha0, zero_add]
    exact hb
  rw [if_neg ha0]
  by_cases hb0 : b.isZero = true
  · rw [if_pos hb0, eq_zero_of_isZero hb hb0, add_zero]
    exact ha
  · rw [if_neg hb0]
    exact ha.add hb

theorem minus_denotes (ha : R.Denotes a u) (hb : R.Denotes b v) :
    R.Denotes (Expr.minus a b) (u - v) := by
  unfold Expr.minus
  by_cases hab : a = b
  · have huv : u = v := ha.unique (hab ▸ hb)
    rw [if_pos hab, huv, sub_self]
    exact denotes_zero
  rw [if_neg hab]
  split
  · rename_i p q
    rw [ha.unique (denotes_rat p), hb.unique (denotes_rat q), ← Rat.cast_sub]
    exact denotes_rat (p - q)
  by_cases hb0 : b.isZero = true
  · rw [if_pos hb0, eq_zero_of_isZero hb hb0, sub_zero]
    exact ha
  · rw [if_neg hb0]
    exact ha.sub hb

theorem times_denotes (ha : R.Denotes a u) (hb : R.Denotes b v) :
    R.Denotes (Expr.times a b) (u * v) := by
  unfold Expr.times
  rcases coefficient_denotes ha with ⟨w, hw, rfl⟩
  rcases coefficient_denotes hb with ⟨z, hz, rfl⟩
  rcases hx : Expr.coefficient a with ⟨p, x⟩
  rcases hy : Expr.coefficient b with ⟨q, y⟩
  rw [hx] at hw
  rw [hy] at hz
  simp only
  rw [mul_mul_mul_comm, ← Rat.cast_mul]
  refine withCoefficient_denotes (p * q) ?_
  -- The rests multiply, a missing one counting for one.
  rcases x with _ | x <;> rcases y with _ | y
  · have hw1 : w = 1 := hw
    have hz1 : z = 1 := hz
    rw [hw1, hz1, mul_one]
    rfl
  · have hw1 : w = 1 := hw
    simp only [hw1, one_mul]
    exact hz
  · have hz1 : z = 1 := hz
    simp only [hz1, mul_one]
    exact hw
  · exact product_denotes hw hz

theorem cast_pos {q : Rat} (hq : 0 < q) : (0 : K) < q := by exact_mod_cast hq

theorem plainQuotient_denotes (ha : R.Denotes a u) (hb : R.Denotes b v) (hv : v ≠ 0) :
    R.Denotes (Expr.plainQuotient a b) (u / v) := by
  unfold Expr.plainQuotient
  split
  · rename_i hab
    rw [ha.unique (hab.1 ▸ hb), div_self hv]
    exact denotes_one
  split
  · -- Dividing by a number is multiplying by its inverse.
    rename_i q _
    have hinv : u / v = (q.inv : Rat) * u := by
      rw [hb.unique (denotes_rat q), div_eq_mul_inv, mul_comm, ← Rat.cast_inv]
      rfl
    have hrest : R.DenotesRest (some a) u := ha
    rw [hinv]
    exact withCoefficient_denotes q.inv hrest
  · rename_i p n _
    split
    · -- The denominator is made rational: `p/√n` is `(p/n)·√n`.
      rename_i hn
      have hn0 : (0 : K) < n := cast_pos hn.1
      rcases hb.of_sqrt with ⟨w, hw, hw0, rfl⟩
      have hwn : w = n := hw.unique (denotes_rat n)
      have hsq : R.sqrt w ^ 2 = w := R.sq_sqrt w hw0
      have heq : u / R.sqrt w = (p / n : Rat) * R.sqrt w := by
        rw [ha.unique (denotes_rat p), Rat.cast_div, ← hwn, div_eq_iff hv, mul_assoc, ← pow_two,
          hsq, div_mul_cancel₀]
        rw [hwn]
        exact hn0.ne'
      rw [heq]
      exact times_denotes (denotes_rat (p / n)) (root_denotes hw hw0)
    · exact ha.div hb hv
  · exact ha.div hb hv

theorem quotient_denotes (ha : R.Denotes a u) (hb : R.Denotes b v) (hv : v ≠ 0) :
    R.Denotes (Expr.quotient a b) (u / v) := by
  unfold Expr.quotient
  by_cases hb0 : b.isZero = true
  · exact absurd (eq_zero_of_isZero hb hb0) hv
  rw [if_neg hb0]
  split
  · rename_i p q
    split
    · -- A quotient of roots is the root of the quotient.
      rename_i hpq
      rcases ha.of_sqrt with ⟨w, hw, hw0, rfl⟩
      rcases hb.of_sqrt with ⟨z, hz, hz0, rfl⟩
      have hz1 : z ≠ 0 := by
        rw [hz.unique (denotes_rat q)]
        exact (cast_pos hpq.2).ne'
      have hroot : R.sqrt w / R.sqrt z = R.sqrt (w / z) := by
        rw [div_eq_iff hv, sqrt_mul_sqrt R (div_nonneg hw0 hz0) hz0, div_mul_cancel₀ w hz1]
      rw [hroot]
      refine root_denotes ?_ (div_nonneg hw0 hz0)
      rw [hw.unique (denotes_rat p), hz.unique (denotes_rat q), ← Rat.cast_div]
      exact denotes_rat (p / q)
    · exact plainQuotient_denotes ha hb hv
  · exact plainQuotient_denotes ha hb hv

theorem cast_powInt (q : Rat) (n : Int) : ((Rational.powInt q n : Rat) : K) = (q : K) ^ n := by
  have hpow : Rat.pow q n.natAbs = q ^ n.natAbs := rfl
  unfold Rational.powInt
  by_cases hn : n < 0
  · have hneg : n = -(n.natAbs : Int) := by omega
    have hinv : Rat.inv (q ^ n.natAbs) = (q ^ n.natAbs)⁻¹ := rfl
    rw [if_pos hn, hpow, hinv, Rat.cast_inv, Rat.cast_pow]
    conv_rhs => rw [hneg, zpow_neg, zpow_natCast]
  · have hpos : n = (n.natAbs : Int) := by omega
    rw [if_neg hn, hpow, Rat.cast_pow]
    conv_rhs => rw [hpos, zpow_natCast]

/-- A power that is not worked out, its exponent being whole. -/
theorem pow_denotes (h : R.Denotes x v) (n : Int) (hv : n < 0 → v ≠ 0) :
    R.Denotes (.pow x (.rat (mkRat n 1))) (v ^ n) := by
  rw [← R.power_intCast, ← cast_mkRat_one]
  refine h.pow (denotes_rat _) (fun m hm hm0 => ?_)
  rw [cast_mkRat_one] at hm
  have hmn : n = m := by exact_mod_cast hm
  exact hv (hmn ▸ hm0)

theorem raiseInt_denotes (x : Expr) (n : Int) (v : K) (h : R.Denotes x v) (hv : n < 0 → v ≠ 0) :
    R.Denotes (Expr.raiseInt x n) (v ^ n) := by
  fun_induction Expr.raiseInt x n generalizing v with
  | case1 =>
      rw [zpow_zero]
      exact denotes_one
  | case2 =>
      rw [zpow_one]
      exact h
  | case3 n _ _ q _ =>
      rw [h.unique (denotes_rat q), ← cast_powInt]
      exact denotes_rat _
  | case5 n _ _ c y _ ih =>
      -- The coefficient and the rest are raised apart.
      rcases h.of_mul with ⟨p, w, hp, hw, rfl⟩
      rw [mul_zpow, hp.unique (denotes_rat c), ← cast_powInt]
      exact times_denotes (denotes_rat _) (ih w hw (fun hn => right_ne_zero_of_mul (hv hn)))
  | case7 n _ _ y heven ih =>
      -- An even power of a root is half that power of the radicand.
      rcases h.of_sqrt with ⟨w, hw, hw0, rfl⟩
      have hn : n = 2 * (n / 2) := by omega
      have hsq : R.sqrt w ^ n = w ^ (n / 2) := by
        conv_lhs => rw [hn, zpow_mul]
        rw [zpow_ofNat, R.sq_sqrt w hw0]
      rw [hsq]
      refine ih w hw (fun hlt hw1 => hv (by omega) ?_)
      exact R.sqrt_eq (le_refl 0) (by rw [hw1, zero_pow two_ne_zero])
  | _ => exact pow_denotes h _ hv

theorem raise_denotes {r : Expr} (hr : Expr.raise a b = .ok r) (ha : R.Denotes a u)
    (hb : R.Denotes b v) (h : ∀ n : ℤ, v = n → n < 0 → u ≠ 0) : R.Denotes r (R.power u v) := by
  rcases Expr.raise_eq_ok.mp hr with ⟨n, hn, rfl⟩ | ⟨-, rfl⟩
  · -- The exponent is a whole number, so the power is one of the field.
    have hv : v = n := by
      rw [(Expr.exponent_eq_some.mp hn).1] at hb
      exact (hb.unique (denotes_rat _)).trans (cast_mkRat_one n)
    rw [hv, R.power_intCast]
    exact raiseInt_denotes a n u ha (h n hv)
  · exact ha.pow hb h

theorem modulus_denotes (h : R.Denotes x v) : R.Denotes (Expr.modulus x) |v| := by
  unfold Expr.modulus
  split
  · rename_i q
    have habs : |v| = ((if q < 0 then -q else q : Rat) : K) := by
      rw [h.unique (denotes_rat q)]
      by_cases hq : q < 0
      · rw [if_pos hq, abs_of_neg (by exact_mod_cast hq), Rat.cast_neg]
      · rw [if_neg hq, abs_of_nonneg (by exact_mod_cast not_lt.mp hq)]
    rw [habs]
    exact denotes_rat _
  · -- What is left without a modulus is positive, or a modulus already.
    have hpi : v = R.pi := h.value_eq.symm
    rw [abs_of_pos (hpi ▸ R.pi_pos)]
    exact h
  · rcases h.of_sqrt with ⟨w, hw, hw0, rfl⟩
    rw [abs_of_nonneg (R.sqrt_nonneg w hw0)]
    exact h
  · rename_i y
    have hy : |R.value y| = v := h.value_eq
    rw [← hy, abs_abs, hy]
    exact h
  · exact h.abs

end Combining

variable [IsStrictOrderedRing K]

theorem denotes_of_simplifies {e s : Expr} (hs : Expr.Simplifies e s) (h : R.Defined e) :
    R.Denotes s (R.value e) := by
  induction hs with
  | rat | pi | var => exact ⟨h, rfl⟩
  | sqrt _ ih => exact root_denotes (ih h.1) h.2
  | abs _ ih => exact modulus_denotes (ih h)
  | pow _ _ hr iha ihb => exact raise_denotes hr (iha h.1) (ihb h.2.1) h.2.2
  | add _ _ iha ihb => exact plus_denotes (iha h.1) (ihb h.2)
  | sub _ _ iha ihb => exact minus_denotes (iha h.1) (ihb h.2)
  | mul _ _ iha ihb => exact times_denotes (iha h.1) (ihb h.2)
  | @div a b _ _ _ _ iha ihb =>
      have hdiv : R.value (.div a b) = R.value a / R.value b :=
        R.interpretation.divide_of_ne _ h.2.2
      rw [hdiv]
      exact quotient_denotes (iha h.1) (ihb h.2.1) h.2.2

/-- A defined expression in which no power overflows is simplified, stays defined and
    keeps its value. -/
theorem simplify_keeps_meaning (e : Expr) (h : R.Defined e) :
    (∃ s, e.simplify = .ok s ∧ R.Defined s ∧ R.value s = R.value e) ↔ e.Contained := by
  rw [← Expr.simplify_isOk]
  constructor
  · rintro ⟨s, hs, -⟩
    exact ⟨s, hs⟩
  · rintro ⟨s, hs⟩
    have hdenotes := R.denotes_of_simplifies (Expr.simplify_eq_ok.mp hs) h
    exact ⟨s, hs, hdenotes.defined, hdenotes.value_eq⟩

/-- The real numbers, every variable being two. -/
noncomputable def realTwos : Rooted ℝ where
  sqrt := Real.sqrt
  sqrt_nonneg x _ := Real.sqrt_nonneg x
  sq_sqrt _ hx := Real.sq_sqrt hx
  pi := Real.pi
  pi_pos := Real.pi_pos
  named _ := 2
  irregular x y := x ^ y

/-- The expression `√x·√x - √x⁻²/√8`, in which three rules meet. -/
def rootsOfVariable : Expr :=
  .sub (.mul (.sqrt (.var "x")) (.sqrt (.var "x")))
    (.div (.pow (.sqrt (.var "x")) (.rat (-2))) (.sqrt (.rat 8)))

/-- The power `2⁻⁹²²³³⁷²⁰³⁶⁸⁵⁴⁷⁷⁵⁸⁰⁸`, whose exponent is the least machine word. -/
def leastPower : Expr := .pow (.rat 2) (.rat Word.least)

/-- The roots keep their meaning, and the power has one but is not simplified. -/
theorem simplify_rootsOfVariable :
    (realTwos.Defined rootsOfVariable ∧ ∃ s, rootsOfVariable.simplify = .ok s ∧
      realTwos.Defined s ∧ realTwos.value s = realTwos.value rootsOfVariable) ∧
    realTwos.Defined leastPower ∧ ¬∃ s, leastPower.simplify = .ok s ∧
      realTwos.Defined s ∧ realTwos.value s = realTwos.value leastPower := by
  have hx : realTwos.value (.var "x") = 2 := rfl
  have h2 : realTwos.value (.rat 2) = 2 := Rat.cast_ofNat 2
  have h8 : realTwos.value (.rat 8) = 8 := Rat.cast_ofNat 8
  have hroot : realTwos.value (.sqrt (.var "x")) ≠ 0 := (Real.sqrt_pos.mpr two_pos).ne'
  have hdenom : realTwos.value (.sqrt (.rat 8)) ≠ 0 := by
    refine (Real.sqrt_pos.mpr ?_).ne'
    exact lt_of_lt_of_eq (by norm_num : (0 : ℝ) < 8) h8.symm
  have hdefined : realTwos.Defined rootsOfVariable := by
    simp only [rootsOfVariable, Defined, hx, h8, true_and]
    exact ⟨⟨zero_le_two, zero_le_two⟩, ⟨zero_le_two, fun _ _ _ => hroot⟩, by norm_num, hdenom⟩
  have hcontained : rootsOfVariable.Contained := by decide +kernel
  have hleast : realTwos.Defined leastPower :=
    ⟨trivial, trivial, fun _ _ _ => h2.trans_ne two_ne_zero⟩
  refine ⟨⟨hdefined, (realTwos.simplify_keeps_meaning _ hdefined).mpr hcontained⟩, hleast, ?_⟩
  intro hsimple
  -- The exponent is a number, and so its own simplified form.
  exact (realTwos.simplify_keeps_meaning _ hleast).mp hsimple leastPower List.mem_cons_self rfl

end Rooted

end ExactCalc
