import ExactCalc.Proofs.Simplify.Inherited

/-!
# Divisions by Zero after Simplifying

The test for a division by zero looks at the tree as it was entered. If it finds
none, the tree is simplified, and there is none in the simplified tree either.

This is more than the test says. It judges a denominator by its simplified form,
one at a time, while the simplifier goes on to build quotients and powers of its
own: a power of a product becomes a product of powers, an even power of a root a
power of what stood under it. None of those has a new denominator. A quotient is
only ever left in place, over the denominator the test has seen. A power does
move on to other bases, but in a normal form neither the rest beside a
coefficient nor what stands under a root is zero, so a base that was not zero
leads to none that is.

What is free of divisions by zero is inherited, except by quotients and powers,
and for these the two arguments supply what is missing. And since the test looks
at the exponent of every power in a tree where it finds nothing, none of them is
left that could overflow.

## Main definitions

* `Expr.ZeroDivision`: A quotient by zero, or zero with a negative exponent.
* `Expr.Undivided`: No division by zero stands anywhere in a tree.
* `Expr.Sustained`: What a base and an exponent need for their power.

## Theorems

* `inherited_undivided`: The operations that cannot divide.
* `Normal.factor_ne_rat`, `Normal.radicand_ne_zero`: The parts of a normal base
  are not zero.
* `undivided_raise`: A power, of a base that is not zero if need be.
* `simplify_undivided`: The test suffices for the simplified tree.
-/

namespace ExactCalc

namespace Expr

/-- A quotient by the number zero, or the number zero with a negative whole
    exponent of moderate size. -/
def ZeroDivision : Expr → Prop
  | div _ b => b = rat 0
  | pow a b => a = rat 0 ∧ ∃ n : Int, b = rat n ∧ -(largestExponent : Int) ≤ n ∧ n < 0
  | _ => False

/-- No division by zero stands anywhere in a tree. -/
def Undivided (e : Expr) : Prop := e.Throughout (¬·.ZeroDivision)

section Operations

variable {a b e x : Expr}

theorem undivided_rat (q : Rat) : Undivided (.rat q) :=
  List.forall_mem_singleton.mpr id

/-- An operation that cannot divide is free of divisions by zero if its operands
    are. -/
theorem inherited_undivided : Inherited Undivided where
  rat := undivided_rat
  sqrt := (throughout_single rfl).trans (and_iff_right id)
  abs := (throughout_single rfl).trans (and_iff_right id)
  add := (throughout_pair rfl).trans (and_iff_right id)
  sub := (throughout_pair rfl).trans (and_iff_right id)
  mul := (throughout_pair rfl).trans (and_iff_right id)

theorem undivided_div (ha : a.Undivided) (hb : b.Undivided) (hzero : b.isZero = false) :
    Undivided (.div a b) := by
  refine (throughout_pair rfl).mpr ⟨fun hb0 => ?_, ha, hb⟩
  rw [isZero_iff.mpr hb0] at hzero
  exact absurd hzero (by decide)

end Operations

section Powers

variable {a b x : Expr}

/-- The rest beside a coefficient is no number. -/
theorem Normal.factor_ne_rat {c : Rat} (h : Normal (.mul (.rat c) x)) (q : Rat) : x ≠ .rat q := by
  rintro rfl
  cases h with
  | scaled _ hbare _ _ => exact not_bare_rat q hbare
  | mul _ _ _ hbare _ => exact not_bare_rat q hbare

/-- Zero does not stay under a root. -/
theorem Normal.radicand_ne_zero (h : Normal (.sqrt x)) : x ≠ .rat 0 := by
  rintro rfl
  cases h with
  | sqrt _ hirreducible =>
      rcases hirreducible 0 rfl with hneg | ⟨n, hn, hsquare, -⟩
      · exact lt_irrefl 0 hneg
      · -- The whole number that is zero is the square of itself.
        rw [Rat.mkRat_one, eq_comm, Int.cast_natCast, Nat.cast_eq_zero] at hn
        exact hsquare (hn ▸ IsSquare.zero)

/-- What a base and an exponent need for their power: a normal base free of
    divisions by zero, and not zero if the exponent is negative. -/
structure Sustained (x : Expr) (n : Int) : Prop where
  normal : x.Normal
  undivided : x.Undivided
  nonzero : n < 0 → x ≠ .rat 0

theorem Sustained.power {n : Int} (h : Sustained x n) :
    Undivided (.pow x (.rat (mkRat n 1))) := by
  refine (throughout_pair rfl).mpr ⟨?_, h.undivided, undivided_rat _⟩
  rintro ⟨hx, m, hm, -, hneg⟩
  rw [rat.injEq, Rat.mkRat_one, Int.cast_inj] at hm
  exact h.nonzero (hm ▸ hneg) hx

theorem Sustained.factor {c : Rat} {n : Int} (h : Sustained (.mul (.rat c) x) n) :
    Sustained x n where
  normal := h.normal.factor
  undivided := (inherited_undivided.mul.mp h.undivided).2
  nonzero _ := h.normal.factor_ne_rat 0

theorem Sustained.radicand {n : Int} (h : Sustained (.sqrt x) n) : Sustained x (n / 2) where
  normal := h.normal.radicand
  undivided := inherited_undivided.sqrt.mp h.undivided
  nonzero _ := h.normal.radicand_ne_zero

/-- A power of normal trees, whose base is not zero if the exponent is a negative
    whole number of moderate size. -/
theorem undivided_raise {r : Expr} (hr : raise a b = .ok r) (hnormal : a.Normal)
    (ha : a.Undivided) (hb : b.Undivided)
    (hzero : ∀ n, b.exponent = .ok (some n) → n < 0 → a ≠ .rat 0) : Undivided r := by
  refine inherited_undivided.raise (I := Sustained) (fun x n h => ⟨h.undivided, h.power⟩)
    (fun c x n h => h.factor) (fun x n h => h.radicand) hr (fun hnone => ?_)
    (fun n hn => ⟨hnormal, ha, hzero n hn⟩)
  -- An exponent that is no moderate whole number stays, whatever the base.
  refine (throughout_pair rfl).mpr ⟨?_, ha, hb⟩
  rintro ⟨-, n, hn, hlow, hneg⟩
  have hsome : b.exponent = .ok (some n) :=
    exponent_eq_some.mpr ⟨by rw [hn, Rat.mkRat_one], by omega⟩
  cases hnone.symm.trans hsome

end Powers

section Search

variable {a b : Expr}

/-- Where nothing is found in two trees, what is known of each holds of both. -/
theorem undivided_operands (iha : a.dividesByZero = .ok false → ∃ s, Simplifies a s ∧ s.Undivided)
    (ihb : b.dividesByZero = .ok false → ∃ t, Simplifies b t ∧ t.Undivided)
    (h : (a.dividesByZero <||> b.dividesByZero) = .ok false) :
    ∃ s t, (Simplifies a s ∧ s.Undivided) ∧ Simplifies b t ∧ t.Undivided := by
  rcases or_eq_false.mp h with ⟨ha, hb⟩
  rcases iha ha with ⟨s, hs⟩
  rcases ihb hb with ⟨t, ht⟩
  exact ⟨s, t, hs, ht⟩

/-- If no division by zero is found in a tree, the tree is simplified, and none stands
    in its simplified form. -/
theorem simplify_undivided (e : Expr) (h : e.dividesByZero = .ok false) :
    ∃ s, e.simplify = .ok s ∧ ∀ t ∈ s.subtrees, ¬t.ZeroDivision := by
  suffices hsimple : ∃ s, Simplifies e s ∧ s.Undivided by
    rcases hsimple with ⟨s, hs, hundivided⟩
    exact ⟨s, simplify_eq_ok.mpr hs, hundivided⟩
  have hkept := inherited_undivided
  induction e with
  | rat q => exact ⟨_, .rat q, undivided_rat q⟩
  | pi => exact ⟨_, .pi, List.forall_mem_singleton.mpr id⟩
  | var name => exact ⟨_, .var name, List.forall_mem_singleton.mpr id⟩
  | sqrt x ih =>
      rcases ih h with ⟨s, hs, hx⟩
      exact ⟨_, .sqrt hs, hkept.root hx⟩
  | abs x ih =>
      rcases ih h with ⟨s, hs, hx⟩
      exact ⟨_, .abs hs, hkept.modulus hx⟩
  | add a b iha ihb =>
      rcases undivided_operands iha ihb h with ⟨s, t, ⟨hs, ha⟩, ht, hb⟩
      exact ⟨_, .add hs ht, hkept.plus ha hb⟩
  | sub a b iha ihb =>
      rcases undivided_operands iha ihb h with ⟨s, t, ⟨hs, ha⟩, ht, hb⟩
      exact ⟨_, .sub hs ht, hkept.minus ha hb⟩
  | mul a b iha ihb =>
      rcases undivided_operands iha ihb h with ⟨s, t, ⟨hs, ha⟩, ht, hb⟩
      exact ⟨_, .mul hs ht, hkept.times ha hb⟩
  | div a b iha ihb =>
      rcases or_eq_false.mp h with ⟨ha, hrest⟩
      rcases or_eq_false.mp hrest with ⟨hb, hzero⟩
      rcases iha ha with ⟨s, hs, ha⟩
      rcases ihb hb with ⟨t, ht, hb⟩
      -- The test has seen the very denominator that may be left in place.
      rw [simplify_eq_ok.mpr ht] at hzero
      exact ⟨_, .div hs ht, hkept.quotient ha (undivided_div ha hb (Except.ok.inj hzero))⟩
  | pow a b iha ihb =>
      rcases or_eq_false.mp h with ⟨ha, hrest⟩
      rcases or_eq_false.mp hrest with ⟨hb, hlook⟩
      rcases iha ha with ⟨s, hs, ha⟩
      rcases ihb hb with ⟨t, ht, hb⟩
      rcases bind_eq_ok.mp hlook with ⟨t', ht', hlook⟩
      rcases bind_eq_ok.mp hlook with ⟨n, hn, hzero⟩
      rcases Except.ok.inj (ht'.symm.trans (simplify_eq_ok.mpr ht))
      -- The test has read the exponent, so it does not overflow.
      rcases raise_isOk.mpr (exponent_isOk.mp ⟨n, hn⟩) with ⟨r, hr⟩
      refine ⟨r, .pow hs ht hr, undivided_raise hr (normal_simplify (simplify_eq_ok.mpr hs)) ha hb
        (fun m hm hneg hbase => ?_)⟩
      rw [hm, Except.ok.injEq] at hn
      rw [← hn, Option.any_some, decide_eq_true hneg, if_pos rfl, simplify_eq_ok.mpr hs, hbase]
        at hzero
      cases hzero

end Search

/-- The expression `(√-2·√-2·√x)⁻⁴ / (π - y)`, in which two roots leave a number
    and a negative power moves on to a variable. -/
def rootsInPower : Expr :=
  .div (.pow (.mul (.mul (.sqrt (.rat (-2))) (.sqrt (.rat (-2)))) (.sqrt (.var "x"))) (.rat (-4)))
    (.sub .pi (.var "y"))

theorem rootsInPower_undivided :
    rootsInPower.dividesByZero = .ok false ∧
      ∃ s, rootsInPower.simplify = .ok s ∧
        s = .div (.mul (.rat (1 / 16)) (.pow (.var "x") (.rat (-2)))) (.sub .pi (.var "y")) ∧
          ∀ t ∈ s.subtrees, ¬t.ZeroDivision := by
  have hnone : rootsInPower.dividesByZero = .ok false := by decide +kernel
  have hform : rootsInPower.simplify =
      .ok (.div (.mul (.rat (1 / 16)) (.pow (.var "x") (.rat (-2)))) (.sub .pi (.var "y"))) := by
    decide +kernel
  rcases simplify_undivided rootsInPower hnone with ⟨s, hs, hundivided⟩
  exact ⟨hnone, s, hs, Except.ok.inj (hs.symm.trans hform), hundivided⟩

end Expr

end ExactCalc
