import ExactCalc.Proofs.FixedPoint.Root
import ExactCalc.Proofs.Simplify.Meaning

/-!
# Sums at a Scale

A sum of numbers and roots, worked out at a scale, is less than one unit of the
last place off for each of its leaves.

Only the leaves are cut off. A number is cut off towards zero, so what is lost
may have either sign, and a root is cut off downwards; neither loses a whole
unit. Sums and differences of scaled values are exact, and the losses of the two
operands add up whatever their signs, as they do not in a product. A modulus
brings two numbers no further apart than they were.

The value to compare with is that of the expression in an ordered field with
square roots. A root is known there by its square alone, which is enough: the
number cut off and the next one have squares on either side of the radicand.

All this needs scales whose places are counts. A root takes a scale with twice the
places, so it is the roots that set the bound, and the first root breaks down when
twice the places are no size.

## Main definitions

* `Expr.leaves`: How many leaves a tree has.
* `Expr.placesScaled`: The most places that a leaf is scaled by.
* `Expr.RootSum`: Sums, differences and moduli of numbers and roots.
* `FixedPoint.Near`: A scaled value less than so many units off.

## Theorems

* `near_scaled`, `near_rootAt`: The leaves.
* `Near.add`, `Near.sub`, `Near.abs`: What the operations do to the loss.
* `near_valueWith`, `valueWith_count`, `breaksDown_valueWith`: The scaled value of a sum, with
  places that are few enough, too many for its scales and too many for its roots.
* `rootSum_near`: The same of a whole evaluation, of an expression that is
  defined.
-/

namespace ExactCalc

universe u

namespace Expr

/-- How many leaves a tree has. -/
def leaves : Expr → Nat
  | rat _ | pi | var _ => 1
  | sqrt x | abs x => x.leaves
  | pow a b | add a b | sub a b | mul a b | div a b => a.leaves + b.leaves

/-- The most places that a leaf is scaled by, a root taking twice as many. -/
def placesScaled (places : Nat) : Expr → Nat
  | rat _ | pi | var _ => places
  | sqrt _ => 2 * places
  | abs x => placesScaled places x
  | pow a b | add a b | sub a b | mul a b | div a b =>
    max (placesScaled places a) (placesScaled places b)

/-- A tree of sums, differences and moduli over numbers and roots of numbers that
    are not negative. -/
inductive RootSum : Expr → Prop where
  | rat (q : Rat) : RootSum (.rat q)
  | root {q : Rat} (hq : 0 ≤ q) : RootSum (.sqrt (.rat q))
  | add {a b : Expr} (ha : RootSum a) (hb : RootSum b) : RootSum (.add a b)
  | sub {a b : Expr} (ha : RootSum a) (hb : RootSum b) : RootSum (.sub a b)
  | abs {x : Expr} (hx : RootSum x) : RootSum (.abs x)

/-- There is no power in a sum of roots, and so no exponent. -/
theorem RootSum.flat {e : Expr} (h : RootSum e) : FixedPoint.exponentHeight e = 0 := by
  induction h with
  | rat | root => rfl
  | add _ _ iha ihb | sub _ _ iha ihb =>
      rw [FixedPoint.exponentHeight, iha, ihb, Nat.max_self]
  | abs _ ih => exact ih

end Expr

namespace FixedPoint

variable {K : Type u} [Field K] [LinearOrder K]

/-- A scaled value is less than so many units of the last place off a number. -/
def Near (places : Nat) (v : K) (units : Nat) (n : Int) : Prop :=
  |(n : K) - v * 10 ^ places| < units

variable {places m n : Nat} {x y : Int} {u v : K}

section Operations

theorem Near.neg (hx : Near places u m x) : Near places (-u) m (-x) := by
  have hflip : ((-x : Int) : K) - -u * 10 ^ places = -(x - u * 10 ^ places) := by
    push_cast
    ring
  rw [Near, hflip, abs_neg]
  exact hx

variable [IsStrictOrderedRing K]

theorem Near.add (hx : Near places u m x) (hy : Near places v n y) :
    Near places (u + v) (m + n) (x + y) := by
  have hsplit : ((x + y : Int) : K) - (u + v) * 10 ^ places =
      (x - u * 10 ^ places) + (y - v * 10 ^ places) := by
    push_cast
    ring
  rw [Near, hsplit, Nat.cast_add]
  exact (abs_add_le _ _).trans_lt (add_lt_add hx hy)

theorem Near.sub (hx : Near places u m x) (hy : Near places v n y) :
    Near places (u - v) (m + n) (x - y) := by
  rw [sub_eq_add_neg, sub_eq_add_neg]
  exact hx.add hy.neg

/-- Moduli are no further apart than the numbers are. -/
theorem Near.abs (hx : Near places u m x) : Near places |u| m x.natAbs := by
  have hpos : (0 : K) ≤ 10 ^ places := by positivity
  have hmoduli : ((x.natAbs : Int) : K) - |u| * 10 ^ places = |(x : K)| - |u * 10 ^ places| := by
    rw [Int.natCast_natAbs, Int.cast_abs, abs_mul, abs_of_nonneg hpos]
  rw [Near, hmoduli]
  exact (abs_abs_sub_abs_le_abs_sub _ _).trans_lt hx

end Operations

variable [IsStrictOrderedRing K]

section Leaves

/-- A number that is cut off towards zero loses less than a unit. -/
theorem near_scaled (h : places < Word.counts) (q : Rat) :
    Near places (q : K) 1 (Decimal.scaled q places) := by
  have hloss : |(Decimal.scaled q places : Rat) - q * 10 ^ places| < 1 := by
    rw [Decimal.scaled_eq q h, abs_sub_lt_iff]
    by_cases hneg : q < 0
    · have hle := Int.le_ceil (q * 10 ^ places)
      have hlt := Int.ceil_lt_add_one (q * 10 ^ places)
      rw [if_pos hneg]
      constructor <;> linarith only [hle, hlt]
    · have hle := Int.floor_le (q * 10 ^ places)
      have hlt := Int.lt_floor_add_one (q * 10 ^ places)
      rw [if_neg hneg]
      constructor <;> linarith only [hle, hlt]
  rw [Near, Nat.cast_one]
  exact_mod_cast hloss

/-- A root is not below the root cut off, and below the next number with so many
    places. -/
theorem cutRoot_le_sqrt_lt (R : Rooted K) {q : Rat} (hq : 0 ≤ q) (places : Nat) :
    (cutRoot places q : K) ≤ R.sqrt q ∧
      R.sqrt q < ((cutRoot places q + 1 / 10 ^ places : Rat) : K) := by
  have hqK : (0 : K) ≤ q := Rat.cast_nonneg.mpr hq
  have hsq := R.sq_sqrt q hqK
  have hunit : (0 : Rat) ≤ 1 / 10 ^ places := (one_div_pos.mpr (Decimal.ten_pow_pos places)).le
  have hnext := add_nonneg (cutRoot_nonneg places q) hunit
  constructor
  · refine le_of_sq_le_sq ?_ (R.sqrt_nonneg q hqK)
    rw [hsq]
    exact_mod_cast cutRoot_sq_le hq places
  · refine lt_of_pow_lt_pow_left₀ 2 (Rat.cast_nonneg.mpr hnext) ?_
    rw [hsq]
    exact_mod_cast lt_cutRoot_add_sq hq places

/-- A root loses less than a unit. -/
theorem near_rootAt (R : Rooted K) {q : Rat} (hq : 0 ≤ q) (h : 2 * places < Word.counts) :
    Near places (R.sqrt q) 1 (rootAt (Decimal.scale (2 * places)) q : Nat) := by
  rcases cutRoot_le_sqrt_lt R hq places with ⟨hle, hlt⟩
  have hpos : (0 : K) < 10 ^ places := by positivity
  have hcut : ((rootAt (Decimal.scale (2 * places)) q : Int) : K) =
      (cutRoot places q : K) * 10 ^ places := by
    rw [← rootAt_div h, Rat.cast_div, Rat.cast_pow, Rat.cast_ofNat, Rat.cast_natCast,
      div_mul_cancel₀ _ hpos.ne', Int.cast_natCast]
  have hlow := mul_le_mul_of_nonneg_right hle hpos.le
  have hhigh := mul_lt_mul_of_pos_right hlt hpos
  -- The next number with so many places is one unit more.
  rw [Rat.cast_add, Rat.cast_div, Rat.cast_one, Rat.cast_pow, Rat.cast_ofNat, add_mul,
    div_mul_cancel₀ _ hpos.ne'] at hhigh
  rw [Near, hcut, Nat.cast_one, abs_sub_lt_iff]
  constructor <;> linarith only [hlow, hhigh]

end Leaves

section Sizes

variable {e : Expr} (places : Nat) (read : Expr → Except Stop Int)

/-- A sum of roots has a value if the places its leaves are scaled by are sizes, however
    exponents are read. It is the value with the count that its places are cut down to. -/
theorem valueWith_count (h : e.RootSum) (hsizes : e.placesScaled places < Word.sizes) :
    ∃ n, valueWith places read e = .ok n ∧ valueWith (Word.count places) read e = .ok n := by
  induction h with
  | rat q =>
      refine ⟨_, valueWith_rat places read q, ?_⟩
      rw [valueWith_rat, Decimal.scaled_count]
  | root hq =>
      rw [valueWith_root _ read hq, valueWith_root _ read hq, sqrtRat_count hsizes,
        sqrtRat_of_lt hsizes]
      exact ⟨_, rfl, rfl⟩
  | add _ _ iha ihb =>
      rcases iha (max_lt_iff.mp hsizes).1 with ⟨x, hx, hcountX⟩
      rcases ihb (max_lt_iff.mp hsizes).2 with ⟨y, hy, hcountY⟩
      exact ⟨x + y, valueWith_add hx hy, valueWith_add hcountX hcountY⟩
  | sub _ _ iha ihb =>
      rcases iha (max_lt_iff.mp hsizes).1 with ⟨x, hx, hcountX⟩
      rcases ihb (max_lt_iff.mp hsizes).2 with ⟨y, hy, hcountY⟩
      exact ⟨x - y, valueWith_sub hx hy, valueWith_sub hcountX hcountY⟩
  | abs _ ih =>
      rcases ih hsizes with ⟨x, hx, hcount⟩
      exact ⟨x.natAbs, valueWith_abs hx, valueWith_abs hcount⟩

/-- A sum breaks down at its first root if that has to carry more places than there are
    sizes. -/
theorem breaksDown_valueWith (h : e.RootSum) (hplaces : places < Word.sizes)
    (hsizes : Word.sizes ≤ e.placesScaled places) :
    valueWith places read e = .error (.breakdown .size) := by
  induction h with
  | rat => exact absurd hplaces (not_lt.mpr hsizes)
  | root hq =>
      rw [valueWith_root _ read hq, sqrtRat_of_le hsizes]
      rfl
  | @add a b ha _ iha ihb | @sub a b ha _ iha ihb =>
      rw [valueWith]
      rcases Nat.lt_or_ge (a.placesScaled places) Word.sizes with hlt | hge
      · -- The first operand has a value, and so it is the second one that breaks down.
        rcases valueWith_count places read ha hlt with ⟨x, hx, -⟩
        rw [hx, ihb ((le_max_iff.mp hsizes).resolve_left (not_le.mpr hlt))]
        rfl
      · rw [iha hge]
        rfl
  | abs _ ih =>
      rw [valueWith, ih hsizes]
      rfl

end Sizes

section Sums

variable (R : Rooted K) {e : Expr}

/-- The scaled value of a sum is off by less than one unit for each leaf, however
    exponents are read. -/
theorem near_valueWith (h : e.RootSum) (places : Nat) (read : Expr → Except Stop Int)
    (hplaces : e.placesScaled places < Word.counts) :
    ∃ n, valueWith places read e = .ok n ∧ Near places (R.value e) e.leaves n := by
  -- Only the leaves are cut off, so an operation adds nothing to what its operands have lost.
  induction h with
  | rat q => exact ⟨_, valueWith_rat places read q, near_scaled hplaces q⟩
  | root hq =>
      refine ⟨_, ?_, near_rootAt R hq hplaces⟩
      rw [valueWith_root _ read hq, sqrtRat_of_lt (lt_trans hplaces Word.counts_lt_sizes)]
      rfl
  | add _ _ iha ihb =>
      rcases iha (max_lt_iff.mp hplaces).1 with ⟨x, hx, hnearX⟩
      rcases ihb (max_lt_iff.mp hplaces).2 with ⟨y, hy, hnearY⟩
      exact ⟨x + y, valueWith_add hx hy, hnearX.add hnearY⟩
  | sub _ _ iha ihb =>
      rcases iha (max_lt_iff.mp hplaces).1 with ⟨x, hx, hnearX⟩
      rcases ihb (max_lt_iff.mp hplaces).2 with ⟨y, hy, hnearY⟩
      exact ⟨x - y, valueWith_sub hx hy, hnearX.sub hnearY⟩
  | abs _ ih =>
      rcases ih hplaces with ⟨x, hx, hnear⟩
      exact ⟨x.natAbs, valueWith_abs hx, hnear.abs⟩

/-- A sum of roots stands for a number. -/
theorem defined_rootSum (h : e.RootSum) : R.Defined e := by
  induction h with
  | rat => exact trivial
  | root hq => exact ⟨trivial, Rat.cast_nonneg.mpr hq⟩
  | add _ _ iha ihb | sub _ _ iha ihb => exact ⟨iha, ihb⟩
  | abs _ ih => exact ih

/-- A sum of numbers and roots has a value that is less than one unit of the last place
    off for each leaf if the places its leaves are scaled by are counts. As long as they
    are sizes, it has at least the value with the count that its places are cut down to;
    where twice the places are no size, a sum with a root in it breaks down. -/
theorem rootSum_near (h : e.RootSum) (places : Nat) :
    R.Defined e ∧
      (e.placesScaled places < Word.counts →
        ∃ n, value places false e = .ok n ∧ |(n : K) - R.value e * 10 ^ places| < e.leaves) ∧
      (e.placesScaled places < Word.sizes →
        ∃ n, value places false e = .ok n ∧ value (Word.count places) false e = .ok n) ∧
      (places < Word.sizes → Word.sizes ≤ e.placesScaled places →
        value places false e = .error (.breakdown .size)) := by
  rw [value_of_flat places e h.flat, value_of_flat (Word.count places) e h.flat]
  exact ⟨defined_rootSum R h, near_valueWith R h places _, valueWith_count places _ h,
    breaksDown_valueWith places _ h⟩

/-- The expression `|√2 - (5/3 + √(1/2))|`, in which every leaf is cut off. -/
def rootDifference : Expr :=
  .abs (.sub (.sqrt (.rat 2)) (.add (.rat (5 / 3)) (.sqrt (.rat (1 / 2)))))

theorem rootSum_near_difference :
    rootDifference.RootSum ∧ rootDifference.placesScaled 3 < Word.counts ∧
      value 3 false rootDifference = .ok 959 ∧
      |(959 : ℝ) - Rooted.realTwos.value rootDifference * 10 ^ 3| < 3 ∧
      (Expr.rat (1 / 3)).RootSum ∧ value (2 ^ 32) false (.rat (1 / 3)) = .ok 0 ∧
      value (2 ^ 63) false rootDifference = .error (.breakdown .size) := by
  have hsum : rootDifference.RootSum :=
    .abs (.sub (.root zero_le_two) (.add (.rat _) (.root (by norm_num))))
  have hvalue : value 3 false rootDifference = .ok 959 := by decide +kernel
  have hplaces : rootDifference.placesScaled 3 < Word.counts := by decide
  rcases rootSum_near Rooted.realTwos hsum 3 with ⟨-, hnear, -⟩
  rcases hnear hplaces with ⟨n, hn, hnear⟩
  rw [hvalue, Except.ok.injEq] at hn
  rw [← hn] at hnear
  -- The first number of places that is no count is cut down to none at all.
  rcases rootSum_near Rooted.realTwos (.rat (1 / 3)) (2 ^ 32) with ⟨-, -, hcount, -⟩
  rcases hcount (by decide) with ⟨m, hm, hcount⟩
  have hzero : value (Word.count (2 ^ 32)) false (.rat (1 / 3)) = .ok 0 := by decide +kernel
  rcases rootSum_near Rooted.realTwos hsum (2 ^ 63) with ⟨-, -, -, hbreaks⟩
  exact ⟨hsum, hplaces, hvalue, by exact_mod_cast hnear, .rat _,
    (hm.trans hcount.symm).trans hzero, hbreaks (by decide) (by decide)⟩

end Sums

end FixedPoint

end ExactCalc
