import ExactCalc.Proofs.Simplify.Steps
import ExactCalc.Proofs.SquareRoot

/-!
# Normal Forms

Simplifying once is enough: a simplified expression is in normal form, and an
expression in normal form is its own simplified form.

A tree is in normal form if its subtrees are and no rule applies at its root.
For most operations that is all there is to say. A product says more, because
the rules for products look two levels down: a rational factor stands on the
left, is neither zero nor one, and what it multiplies has no rational factor
again. And a root says what its radicand is, because the rule for roots does not
look at the tree at all but at the factors of a number.

A combining function that leaves its operation in place gives a normal form for
that reason alone. Otherwise it gives back one of its operands, a part of one,
or a product put together anew, and there the normal form of the operands is
what makes the result normal.

Some rules build a tree that could be simplified anew, such as a power of a
product as a product of powers. The combining functions do not do so, and need
not: on normal operands the outcome would be the same.

A power left in place keeps an exponent that did not overflow. So a tree in normal
form is simplified without breaking down, and simplifying twice fails only where
simplifying once does.

## Main definitions

* `Expr.Bare`: No rational factor can be taken off a tree.
* `Expr.Irreducible`: A radicand that no rule for roots applies to.
* `Expr.Normal`: The normal form.

## Theorems

* `coefficient_of_normal`: What a rational factor multiplies.
* `normal_withCoefficient`, `normal_root`, `normal_times`, `normal_quotient`,
  `normal_raise`: The combining functions.
* `normal_simplify`, `normal_iff_simplify_eq`: Simplified forms are the normal
  forms.
* `raiseInt_mul_eq_simplify`, `raiseInt_sqrt_eq_simplify`: Simplifying anew
  changes nothing.
* `simplify_simplify`: Simplifying once is enough.
-/

namespace ExactCalc

namespace Expr

/-- No rational factor can be taken off the tree. -/
def Bare (e : Expr) : Prop := coefficient e = (1, some e)

/-- The root of the number stays as it is: the number is negative, or a whole
    number that is no square and has no square factor that is looked for. -/
def Irreducible (q : Rat) : Prop :=
  q < 0 ∨ ∃ n : Nat, q = mkRat n 1 ∧ ¬IsSquare n ∧ SquareRoot.Reduced n

/-- No rule applies to the tree or to any part of it. -/
inductive Normal : Expr → Prop where
  | rat (q : Rat) : Normal (.rat q)
  | pi : Normal .pi
  | var (name : String) : Normal (.var name)
  | sqrt {x : Expr} (hx : Normal x) (h : ∀ q, x = .rat q → Irreducible q) : Normal (.sqrt x)
  | abs {x : Expr} (hx : Normal x) (h : modulus x = .abs x) : Normal (.abs x)
  | pow {a b : Expr} (ha : Normal a) (hb : Normal b) (h : raise a b = .ok (.pow a b)) :
      Normal (.pow a b)
  | add {a b : Expr} (ha : Normal a) (hb : Normal b) (h : plus a b = .add a b) :
      Normal (.add a b)
  | sub {a b : Expr} (ha : Normal a) (hb : Normal b) (h : minus a b = .sub a b) :
      Normal (.sub a b)
  | scaled {c : Rat} {x : Expr} (hx : Normal x) (hbare : Bare x) (h0 : c ≠ 0) (h1 : c ≠ 1) :
      Normal (.mul (.rat c) x)
  | mul {a b : Expr} (ha : Normal a) (hb : Normal b) (hbareA : Bare a) (hbareB : Bare b)
      (h : product a b = .mul a b) : Normal (.mul a b)
  | div {a b : Expr} (ha : Normal a) (hb : Normal b) (h : quotient a b = .div a b) :
      Normal (.div a b)

section Coefficients

theorem not_bare_rat (q : Rat) : ¬Bare (.rat q) := by
  intro h
  cases congrArg Prod.snd h

theorem bare_sqrt (x : Expr) : Bare (.sqrt x) := rfl

theorem bare_mul {a : Expr} (b : Expr) (h : ∀ q, a ≠ .rat q) : Bare (.mul a b) := by
  cases a with
  | rat q => exact absurd rfl (h q)
  | _ => rfl

theorem Normal.factor {c : Rat} {x : Expr} (h : Normal (.mul (.rat c) x)) : Normal x := by
  cases h with
  | scaled hx _ _ _ => exact hx
  | mul _ hx _ _ _ => exact hx

theorem Normal.radicand {x : Expr} (h : Normal (.sqrt x)) : Normal x := by
  cases h with
  | sqrt hx _ => exact hx

/-- What is left of a normal tree once its rational factor is taken off. -/
theorem coefficient_of_normal {x y : Expr} {c : Rat} (hx : Normal x)
    (h : coefficient x = (c, some y)) : Normal y ∧ Bare y := by
  by_cases hbare : Bare x
  · rw [hbare, Prod.mk.injEq, Option.some.injEq] at h
    exact ⟨h.2 ▸ hx, h.2 ▸ hbare⟩
  cases hx with
  | rat q => cases congrArg Prod.snd h
  | scaled hx hy _ _ =>
      simp only [coefficient, Prod.mk.injEq, Option.some.injEq] at h
      exact ⟨h.2 ▸ hx, h.2 ▸ hy⟩
  | mul _ _ ha _ _ =>
      -- The first factor is no number, so the whole product is its own rest.
      refine absurd (bare_mul _ (fun q hq => ?_)) hbare
      exact not_bare_rat q (hq ▸ ha)
  | _ => exact absurd rfl hbare

/-- Putting a coefficient together with the rest of a normal tree. -/
theorem normal_withCoefficient (c : Rat) {rest : Option Expr} (h : ∀ x ∈ rest, Normal x) :
    Normal (withCoefficient c rest) := by
  rcases rest with _ | x
  · exact .rat c
  have hx : Normal x := h x rfl
  unfold withCoefficient
  rcases hcoef : coefficient x with ⟨d, _ | y⟩
  · simp only [hcoef]
    exact .rat _
  · rcases coefficient_of_normal hx hcoef with ⟨hy, hbare⟩
    simp only [hcoef]
    by_cases h0 : c * d = 0
    · rw [if_pos h0]
      exact .rat 0
    by_cases h1 : c * d = 1
    · rw [if_neg h0, if_pos h1]
      exact hy
    · rw [if_neg h0, if_neg h1]
      exact .scaled hy hbare h0 h1

/-- A coefficient in front of a bare tree is dropped where it is zero or one. -/
theorem withCoefficient_of_bare {x : Expr} (h : Bare x) (c : Rat) :
    withCoefficient c (some x) =
      if c = 0 then .rat 0 else if c = 1 then x else .mul (.rat c) x := by
  simp only [withCoefficient, show coefficient x = (1, some x) from h, mul_one]

theorem withCoefficient_one {x : Expr} (h : Bare x) : withCoefficient 1 (some x) = x := by
  rw [withCoefficient_of_bare h, if_neg one_ne_zero, if_pos rfl]

theorem times_rat (c : Rat) (e : Expr) :
    times (.rat c) e = withCoefficient (c * (coefficient e).1) (coefficient e).2 := by
  unfold times
  rcases coefficient e with ⟨d, _ | x⟩ <;> rfl

/-- A number goes into the coefficient of a product. -/
theorem times_withCoefficient {x : Expr} (c d : Rat) (h : Bare x) :
    times (.rat c) (withCoefficient d (some x)) = withCoefficient (c * d) (some x) := by
  rw [times_rat, withCoefficient_of_bare h d]
  by_cases h0 : d = 0
  · rw [if_pos h0, h0, mul_zero, withCoefficient_of_bare h, if_pos rfl]
    exact congrArg Expr.rat (mul_zero c)
  by_cases h1 : d = 1
  · rw [if_neg h0, if_pos h1, h1, show coefficient x = (1, some x) from h]
  · rw [if_neg h0, if_neg h1]
    rfl

end Coefficients

section Roots

theorem root_of_not_rat {x : Expr} (h : ∀ q, x ≠ .rat q) : root x = .sqrt x := by
  cases x with
  | rat q => exact absurd rfl (h q)
  | _ => rfl

/-- An irreducible radicand stays under its root. -/
theorem root_of_irreducible {q : Rat} (h : Irreducible q) : root (.rat q) = .sqrt (.rat q) := by
  rcases h with hneg | ⟨n, rfl, hsquare, hreduced⟩
  · have hnone : SquareRoot.ofSquare? q = none :=
      SquareRoot.ofSquare?_eq_none.mpr (fun hq => not_lt.mpr hq.nonneg hneg)
    rw [root, hnone]
    simp only
    rw [if_pos hneg]
  · have hcast : (mkRat n 1 : Rat) = n := by rw [Rat.mkRat_one, Int.cast_natCast]
    rw [hcast]
    have hnone : SquareRoot.ofSquare? (n : Rat) = none :=
      SquareRoot.ofSquare?_eq_none.mpr (fun hq => hsquare (Rat.isSquare_natCast_iff.mp hq))
    have hnonneg : ¬(n : Rat) < 0 := not_lt.mpr (Nat.cast_nonneg n)
    rw [root, hnone]
    simp only
    rw [if_neg hnonneg, reducedRoot, Rat.num_natCast, Rat.den_natCast, Int.natAbs_natCast,
      Nat.mul_one, SquareRoot.squareFactors_of_reduced hreduced]
    simp only
    rw [hcast]
    exact withCoefficient_one rfl

/-- Taking square factors out of a number that is no square leaves no square. -/
theorem irreducible_squareFactors {q : Rat} (hq : 0 ≤ q) (hsquare : ¬IsSquare q) :
    Irreducible (mkRat (SquareRoot.squareFactors (q.num.natAbs * q.den)).1 1) := by
  have hq0 : q ≠ 0 := fun h => hsquare (h ▸ IsSquare.zero)
  exact .inr ⟨_, rfl, SquareRoot.not_isSquare_squareFactors hq hsquare,
    SquareRoot.reduced_squareFactors (SquareRoot.natAbs_mul_den_pos hq0)⟩

theorem normal_root {x : Expr} (hx : Normal x) : Normal (root x) := by
  by_cases hrat : ∃ q, x = .rat q
  · rcases hrat with ⟨q, rfl⟩
    rw [root]
    rcases hs : SquareRoot.ofSquare? q with _ | s
    · simp only
      by_cases hneg : q < 0
      · rw [if_pos hneg]
        refine .sqrt hx (fun p hp => .inl ?_)
        rw [Expr.rat.injEq] at hp
        exact hp ▸ hneg
      · rw [if_neg hneg, reducedRoot]
        rcases hfactors : SquareRoot.squareFactors (q.num.natAbs * q.den) with ⟨n, k⟩
        have hirreducible := irreducible_squareFactors (not_lt.mp hneg)
          (SquareRoot.ofSquare?_eq_none.mp hs)
        rw [hfactors] at hirreducible
        refine normal_withCoefficient _ (fun y hy => ?_)
        rw [Option.mem_some_iff] at hy
        refine hy ▸ .sqrt (.rat _) (fun p hp => ?_)
        rw [Expr.rat.injEq] at hp
        exact hp ▸ hirreducible
    · exact .rat s
  · rw [root_of_not_rat (fun q hq => hrat ⟨q, hq⟩)]
    exact .sqrt hx (fun q hq => absurd ⟨q, hq⟩ hrat)

end Roots

section Combining

variable {a b x : Expr}

theorem normal_product (ha : Normal a) (hb : Normal b) (hbareA : Bare a) (hbareB : Bare b) :
    Normal (product a b) := by
  have hplain : product a b = .mul a b → Normal (product a b) := by
    intro h
    rw [h]
    exact .mul ha hb hbareA hbareB h
  by_cases hroots : ∃ u v, a = .sqrt u ∧ b = .sqrt v
  · rcases hroots with ⟨u, v, rfl, rfl⟩
    unfold product at hplain ⊢
    by_cases huv : u = v
    · simp only [huv, if_true]
      exact hb.radicand
    simp only [huv, if_false] at hplain ⊢
    split
    · rename_i p q
      by_cases hneg : p < 0 ∨ q < 0
      · exact hplain (by simp only [hneg, if_true])
      · rw [if_neg hneg]
        exact normal_root (.rat _)
    · exact .mul ha hb hbareA hbareB (by unfold product; simp only [huv, if_false])
  · refine hplain ?_
    unfold product
    split
    · exact absurd ⟨_, _, rfl, rfl⟩ hroots
    · rfl

/-- What becomes of a sum. -/
theorem plus_cases (a b : Expr) :
    plus a b = .add a b ∨ (∃ q, plus a b = .rat q) ∨ plus a b = a ∨ plus a b = b := by
  unfold plus
  split
  · exact .inr (.inl ⟨_, rfl⟩)
  · by_cases hzeroA : a.isZero = true
    · exact .inr (.inr (.inr (if_pos hzeroA)))
    by_cases hzeroB : b.isZero = true
    · exact .inr (.inr (.inl (by rw [if_neg hzeroA, if_pos hzeroB])))
    · exact .inl (by rw [if_neg hzeroA, if_neg hzeroB])

theorem normal_plus (ha : Normal a) (hb : Normal b) : Normal (plus a b) := by
  rcases plus_cases a b with h | ⟨q, h⟩ | h | h <;> rw [h]
  · exact .add ha hb h
  · exact .rat q
  · exact ha
  · exact hb

/-- What becomes of a difference. -/
theorem minus_cases (a b : Expr) :
    minus a b = .sub a b ∨ (∃ q, minus a b = .rat q) ∨ minus a b = a := by
  unfold minus
  by_cases hab : a = b
  · exact .inr (.inl ⟨0, if_pos hab⟩)
  rw [if_neg hab]
  split
  · exact .inr (.inl ⟨_, rfl⟩)
  · by_cases hzero : b.isZero = true
    · exact .inr (.inr (if_pos hzero))
    · exact .inl (if_neg hzero)

theorem normal_minus (ha : Normal a) (hb : Normal b) : Normal (minus a b) := by
  rcases minus_cases a b with h | ⟨q, h⟩ | h <;> rw [h]
  · exact .sub ha hb h
  · exact .rat q
  · exact ha

theorem normal_times (ha : Normal a) (hb : Normal b) : Normal (times a b) := by
  unfold times
  rcases hcoefA : coefficient a with ⟨p, x⟩
  rcases hcoefB : coefficient b with ⟨q, y⟩
  refine normal_withCoefficient (p * q) (fun z hz => ?_)
  -- What the coefficients multiply is bare, so the product of two such rests is normal.
  rcases x with _ | x <;> rcases y with _ | y <;>
    simp only [Option.mem_def, Option.some.injEq, reduceCtorEq] at hz
  · exact hz ▸ (coefficient_of_normal hb hcoefB).1
  · exact hz ▸ (coefficient_of_normal ha hcoefA).1
  · rcases coefficient_of_normal ha hcoefA with ⟨hx, hbareX⟩
    rcases coefficient_of_normal hb hcoefB with ⟨hy, hbareY⟩
    exact hz ▸ normal_product hx hy hbareX hbareY

/-- What becomes of a quotient that no rule for two roots applies to. -/
theorem plainQuotient_cases (a b : Expr) :
    plainQuotient a b = .div a b ∨ (∃ q, plainQuotient a b = .rat q) ∨
      (∃ c, plainQuotient a b = withCoefficient c (some a)) ∨
      ∃ c q, plainQuotient a b = times (.rat c) (root (.rat q)) := by
  unfold plainQuotient
  by_cases hone : a = b ∧ (!a.isRat) = true ∧ (!a.hasVariable) = true
  · exact .inr (.inl ⟨1, if_pos hone⟩)
  rw [if_neg hone]
  split
  · exact .inr (.inr (.inl ⟨_, rfl⟩))
  · rename_i p n
    by_cases hn : 0 < n ∧ Rational.isWhole n = true
    · exact .inr (.inr (.inr ⟨_, _, if_pos hn⟩))
    · exact .inl (if_neg hn)
  · exact .inl rfl

/-- What becomes of a quotient. -/
theorem quotient_cases (a b : Expr) :
    quotient a b = .div a b ∨ (∃ q, quotient a b = root (.rat q)) ∨
      quotient a b = plainQuotient a b := by
  unfold quotient
  by_cases hzero : b.isZero = true
  · exact .inl (if_pos hzero)
  rw [if_neg hzero]
  split
  · rename_i p q
    by_cases hpq : 0 < p ∧ 0 < q
    · exact .inr (.inl ⟨_, if_pos hpq⟩)
    · exact .inr (.inr (if_neg hpq))
  · exact .inr (.inr rfl)

theorem normal_quotient (ha : Normal a) (hb : Normal b) : Normal (quotient a b) := by
  by_cases hplain : quotient a b = .div a b
  · rw [hplain]
    exact .div ha hb hplain
  rcases quotient_cases a b with h | ⟨q, h⟩ | h
  · exact absurd h hplain
  · rw [h]
    exact normal_root (.rat q)
  rw [h] at hplain ⊢
  rcases plainQuotient_cases a b with h | ⟨q, h⟩ | ⟨c, h⟩ | ⟨c, q, h⟩
  · exact absurd h hplain
  · rw [h]
    exact .rat q
  · rw [h]
    refine normal_withCoefficient c (fun x hx => ?_)
    rw [Option.mem_some_iff] at hx
    exact hx ▸ ha
  · rw [h]
    exact normal_times (.rat c) (normal_root (.rat q))

/-- What becomes of a whole power. -/
theorem raiseInt_cases (a : Expr) (n : Int) :
    raiseInt a n = .pow a (.rat (mkRat n 1)) ∨ (∃ q, raiseInt a n = .rat q) ∨
      raiseInt a n = a ∨
      (∃ c x, a = .mul (.rat c) x ∧
        raiseInt a n = times (.rat (Rational.powInt c n)) (raiseInt x n)) ∨
      ∃ x, a = .sqrt x ∧ n % 2 = 0 ∧ raiseInt a n = raiseInt x (n / 2) := by
  by_cases h0 : n = 0
  · exact .inr (.inl ⟨1, by rw [raiseInt.eq_def, if_pos h0]⟩)
  by_cases h1 : n = 1
  · exact .inr (.inr (.inl (by rw [raiseInt.eq_def, if_neg h0, if_pos h1])))
  rw [raiseInt.eq_def, if_neg h0, if_neg h1]
  split
  · rename_i q
    by_cases hfits : powerFits q n = true
    · exact .inr (.inl ⟨_, if_pos hfits⟩)
    · exact .inl (if_neg hfits)
  · rename_i c x
    by_cases hfits : powerFits c n = true
    · exact .inr (.inr (.inr (.inl ⟨c, x, rfl, if_pos hfits⟩)))
    · exact .inl (if_neg hfits)
  · rename_i x
    by_cases heven : n % 2 = 0
    · exact .inr (.inr (.inr (.inr ⟨x, rfl, heven, if_pos heven⟩)))
    · exact .inl (if_neg heven)
  · exact .inl rfl

theorem normal_raiseInt {a : Expr} (ha : Normal a) {n : Int} (hn : n.natAbs ≤ largestExponent) :
    Normal (raiseInt a n) := by
  rcases raiseInt_cases a n with h | ⟨q, h⟩ | h | ⟨c, x, rfl, h⟩ | ⟨x, rfl, -, h⟩
  · rw [h]
    exact .pow ha (.rat _) ((raise_whole a hn).trans (congrArg Except.ok h))
  · rw [h]
    exact .rat q
  · rw [h]
    exact ha
  · rw [h]
    exact normal_times (.rat _) (normal_raiseInt ha.factor hn)
  · rw [h]
    exact normal_raiseInt ha.radicand (by omega)
termination_by sizeOf a

theorem normal_raise {r : Expr} (ha : Normal a) (hb : Normal b) (h : raise a b = .ok r) :
    Normal r := by
  rcases raise_eq_ok.mp h with ⟨n, hn, rfl⟩ | ⟨-, rfl⟩
  · exact normal_raiseInt ha (exponent_eq_some.mp hn).2
  · exact .pow ha hb h

theorem normal_modulus (hx : Normal x) : Normal (modulus x) := by
  by_cases hplain : modulus x = .abs x
  · rw [hplain]
    exact .abs hx hplain
  cases x with
  | rat q => exact .rat _
  | pi | sqrt x | abs x => exact hx
  | _ => exact absurd rfl hplain

end Combining

section Forms

variable {e s x : Expr}

/-- A simplified tree is in normal form. -/
theorem normal_simplify (h : e.simplify = .ok s) : Normal s := by
  rw [simplify_eq_ok] at h
  induction h with
  | rat q => exact .rat q
  | pi => exact .pi
  | var name => exact .var name
  | sqrt _ ih => exact normal_root ih
  | abs _ ih => exact normal_modulus ih
  | pow _ _ h iha ihb => exact normal_raise iha ihb h
  | add _ _ iha ihb => exact normal_plus iha ihb
  | sub _ _ iha ihb => exact normal_minus iha ihb
  | mul _ _ iha ihb => exact normal_times iha ihb
  | div _ _ iha ihb => exact normal_quotient iha ihb

/-- No rule changes a tree in normal form. -/
theorem simplifies_of_normal (h : Normal e) : Simplifies e e := by
  -- By induction on the form: a rule finds its operands simplified, and then has nothing to do.
  induction h with
  | rat q => exact .rat q
  | pi => exact .pi
  | var name => exact .var name
  | @sqrt x _ hirreducible ih =>
      have hroot : root x = .sqrt x := by
        by_cases hrat : ∃ q, x = .rat q
        · rcases hrat with ⟨q, rfl⟩
          exact root_of_irreducible (hirreducible q rfl)
        · exact root_of_not_rat (fun q hq => hrat ⟨q, hq⟩)
      have hs := Simplifies.sqrt ih
      rwa [hroot] at hs
  | abs _ h ih =>
      have hs := Simplifies.abs ih
      rwa [h] at hs
  | pow _ _ h iha ihb => exact .pow iha ihb h
  | add _ _ h iha ihb =>
      have hs := Simplifies.add iha ihb
      rwa [h] at hs
  | sub _ _ h iha ihb =>
      have hs := Simplifies.sub iha ihb
      rwa [h] at hs
  | div _ _ h iha ihb =>
      have hs := Simplifies.div iha ihb
      rwa [h] at hs
  | @scaled c x _ hbare h0 h1 ih =>
      have hs := Simplifies.mul (.rat c) ih
      have hcoef : coefficient x = (1, some x) := hbare
      rwa [times_rat, hcoef, mul_one, withCoefficient_of_bare hbare, if_neg h0, if_neg h1] at hs
  | @mul a b _ _ hbareA hbareB h iha ihb =>
      have hs := Simplifies.mul iha ihb
      have hcoefA : coefficient a = (1, some a) := hbareA
      have hcoefB : coefficient b = (1, some b) := hbareB
      have htimes : times a b = .mul a b := by
        rw [times, hcoefA, hcoefB]
        simp only [h, mul_one]
        exact withCoefficient_one (bare_mul b (fun q hq => not_bare_rat q (hq ▸ hbareA)))
      rwa [htimes] at hs

theorem simplify_of_normal (h : Normal e) : e.simplify = .ok e :=
  simplify_eq_ok.mpr (simplifies_of_normal h)

/-- The trees in normal form are those that simplifying leaves alone. -/
theorem normal_iff_simplify_eq : Normal e ↔ e.simplify = .ok e :=
  ⟨simplify_of_normal, normal_simplify⟩

/-- The power of a product, simplified anew as a product of powers. -/
theorem raiseInt_mul_eq_simplify {c : Rat} {n : Int}
    (h : Normal (.mul (.rat c) x)) (hn : n.natAbs ≤ largestExponent)
    (h0 : n ≠ 0) (h1 : n ≠ 1) (hfits : powerFits c n = true) :
    (mul (.rat (Rational.powInt c n)) (.pow x (.rat (mkRat n 1)))).simplify =
      .ok (raiseInt (.mul (.rat c) x) n) := by
  have hpower : Simplifies (.pow x (.rat (mkRat n 1))) (raiseInt x n) :=
    .pow (simplifies_of_normal h.factor) (.rat _) (raise_whole x hn)
  rw [raiseInt, if_neg h0, if_neg h1, if_pos hfits]
  exact simplify_eq_ok.mpr (.mul (.rat _) hpower)

/-- The even power of a root, simplified anew as a power. -/
theorem raiseInt_sqrt_eq_simplify {n : Int} (h : Normal (.sqrt x))
    (hn : n.natAbs ≤ largestExponent) (h0 : n ≠ 0) (heven : n % 2 = 0) :
    (pow x (.rat (mkRat (n / 2) 1))).simplify = .ok (raiseInt (.sqrt x) n) := by
  have h1 : n ≠ 1 := by omega
  rw [raiseInt, if_neg h0, if_neg h1, if_pos heven]
  exact simplify_eq_ok.mpr
    (.pow (simplifies_of_normal h.radicand) (.rat _) (raise_whole x (by omega)))

/-- Simplifying once is enough, wherever it does not break down. -/
theorem simplify_simplify (e : Expr) :
    (∃ s, e.simplify = .ok s ∧ s.simplify = .ok s) ↔ e.Contained := by
  rw [← simplify_isOk]
  constructor
  · rintro ⟨s, hs, -⟩
    exact ⟨s, hs⟩
  · rintro ⟨s, hs⟩
    exact ⟨s, hs, simplify_of_normal (normal_simplify hs)⟩

end Forms

end Expr

end ExactCalc
