import ExactCalc.Proofs.Simplify.NormalForm

/-!
# What a Simplified Tree Inherits

Properties of trees that simplifying keeps.

The combining functions make their results from numbers, from their operands and
parts of these, and from a few operations put together anew. A property is
therefore kept by all of them if every number has it, and if a root, a modulus, a
sum, a difference or a product has it exactly when its operands do: taking such
an operation apart loses nothing, and putting one together needs nothing else.

Quotients and powers are left out of this, because what is said of them may
depend on the denominator or on the exponent. They are never taken apart, only
left in place, so it is enough to know the property of what is left. For a
quotient that is one tree. A whole power goes on to a part of its base, with half
the exponent if the part stood under a root, and what is known of the two has to
be known again there; it is the invariant of that recursion.

## Main definitions

* `Expr.Inherited`: A property goes from the operands to the operation and back.

## Theorems

* `Inherited.withCoefficient`, `Inherited.root`, `Inherited.product`,
  `Inherited.plus`, `Inherited.minus`, `Inherited.times`, `Inherited.modulus`:
  The combining functions that keep an inherited property as it is.
* `Inherited.quotient`: A quotient, by what is left of it.
* `Inherited.raiseInt`, `Inherited.raise`: A power, by an invariant.
-/

namespace ExactCalc

namespace Expr

/-- Every number has the property, and an operation other than a quotient or a
    power has it just when its operands do. -/
structure Inherited (Q : Expr → Prop) : Prop where
  rat (q : Rat) : Q (.rat q)
  sqrt {x : Expr} : Q (.sqrt x) ↔ Q x
  abs {x : Expr} : Q (.abs x) ↔ Q x
  add {a b : Expr} : Q (.add a b) ↔ Q a ∧ Q b
  sub {a b : Expr} : Q (.sub a b) ↔ Q a ∧ Q b
  mul {a b : Expr} : Q (.mul a b) ↔ Q a ∧ Q b

namespace Inherited

variable {Q : Expr → Prop} (hQ : Inherited Q) {a b x y : Expr}

include hQ

theorem coefficient {c : Rat} (hx : Q x) (h : Expr.coefficient x = (c, some y)) : Q y := by
  unfold Expr.coefficient at h
  split at h
  · cases congrArg Prod.snd h
  · rw [Prod.mk.injEq, Option.some.injEq] at h
    exact h.2 ▸ (hQ.mul.mp hx).2
  · rw [Prod.mk.injEq, Option.some.injEq] at h
    exact h.2 ▸ hx

theorem withCoefficient (c : Rat) {rest : Option Expr} (h : ∀ x ∈ rest, Q x) :
    Q (Expr.withCoefficient c rest) := by
  rcases rest with _ | x
  · exact hQ.rat c
  have hx : Q x := h x rfl
  unfold Expr.withCoefficient
  rcases hcoef : Expr.coefficient x with ⟨d, _ | y⟩
  · simp only [hcoef]
    exact hQ.rat _
  have hy : Q y := hQ.coefficient hx hcoef
  simp only [hcoef]
  by_cases h0 : c * d = 0
  · rw [if_pos h0]
    exact hQ.rat 0
  by_cases h1 : c * d = 1
  · rw [if_neg h0, if_pos h1]
    exact hy
  · rw [if_neg h0, if_neg h1]
    exact hQ.mul.mpr ⟨hQ.rat _, hy⟩

theorem root (hx : Q x) : Q (Expr.root x) := by
  have hplain : Q (.sqrt x) := hQ.sqrt.mpr hx
  unfold Expr.root
  split
  · split
    · exact hQ.rat _
    · split
      · exact hplain
      · rw [reducedRoot]
        rcases SquareRoot.squareFactors _ with ⟨n, k⟩
        refine hQ.withCoefficient _ (fun y hy => ?_)
        rw [Option.mem_some_iff] at hy
        exact hy ▸ hQ.sqrt.mpr (hQ.rat _)
  · exact hplain

theorem product (ha : Q a) (hb : Q b) : Q (Expr.product a b) := by
  have hplain : Q (.mul a b) := hQ.mul.mpr ⟨ha, hb⟩
  unfold Expr.product
  split
  · split
    · exact hQ.sqrt.mp ha
    · split
      · split
        · exact hplain
        · exact hQ.root (hQ.rat _)
      · exact hplain
  · exact hplain

theorem plus (ha : Q a) (hb : Q b) : Q (Expr.plus a b) := by
  rcases plus_cases a b with h | ⟨q, h⟩ | h | h <;> rw [h]
  · exact hQ.add.mpr ⟨ha, hb⟩
  · exact hQ.rat q
  · exact ha
  · exact hb

theorem minus (ha : Q a) (hb : Q b) : Q (Expr.minus a b) := by
  rcases minus_cases a b with h | ⟨q, h⟩ | h <;> rw [h]
  · exact hQ.sub.mpr ⟨ha, hb⟩
  · exact hQ.rat q
  · exact ha

theorem times (ha : Q a) (hb : Q b) : Q (Expr.times a b) := by
  unfold Expr.times
  rcases hcoefA : Expr.coefficient a with ⟨p, x⟩
  rcases hcoefB : Expr.coefficient b with ⟨q, y⟩
  refine hQ.withCoefficient (p * q) (fun z hz => ?_)
  -- What is left beside the coefficients is the rest of one factor or the product of both.
  rcases x with _ | x <;> rcases y with _ | y <;>
    simp only [Option.mem_def, Option.some.injEq, reduceCtorEq] at hz
  · exact hz ▸ hQ.coefficient hb hcoefB
  · exact hz ▸ hQ.coefficient ha hcoefA
  · exact hz ▸ hQ.product (hQ.coefficient ha hcoefA) (hQ.coefficient hb hcoefB)

theorem modulus (hx : Q x) : Q (Expr.modulus x) := by
  cases x with
  | rat q => exact hQ.rat _
  | pi | sqrt y | abs y => exact hx
  | _ => exact hQ.abs.mpr hx

/-- A quotient has the property if what is left of it has, should it be left in
    place. -/
theorem quotient (ha : Q a) (hdiv : Q (.div a b)) : Q (Expr.quotient a b) := by
  rcases quotient_cases a b with h | ⟨q, h⟩ | h <;> rw [h]
  · exact hdiv
  · exact hQ.root (hQ.rat q)
  rcases plainQuotient_cases a b with h | ⟨q, h⟩ | ⟨c, h⟩ | ⟨c, q, h⟩ <;> rw [h]
  · exact hdiv
  · exact hQ.rat q
  · refine hQ.withCoefficient c (fun x hx => ?_)
    rw [Option.mem_some_iff] at hx
    exact hx ▸ ha
  · exact hQ.times (hQ.rat c) (hQ.root (hQ.rat q))

section Powers

variable {I : Expr → Int → Prop}
  (hpower : ∀ x n, I x n → Q x ∧ Q (.pow x (.rat (mkRat n 1))))
  (hfactor : ∀ c x n, I (.mul (.rat c) x) n → I x n)
  (hradicand : ∀ x n, I (.sqrt x) n → I x (n / 2))

include hpower hfactor hradicand

/-- A whole power has the property if an invariant of its base and its exponent
    gives it to what is left of the power. -/
theorem raiseInt {a : Expr} {n : Int} (h : I a n) : Q (Expr.raiseInt a n) := by
  rcases raiseInt_cases a n with hr | ⟨q, hr⟩ | hr | ⟨c, x, rfl, hr⟩ | ⟨x, rfl, -, hr⟩ <;> rw [hr]
  · exact (hpower a n h).2
  · exact hQ.rat q
  · exact (hpower a n h).1
  -- The last two cases move on to a part of the base, which is smaller.
  · exact hQ.times (hQ.rat _) (raiseInt (hfactor c x n h))
  · exact raiseInt (hradicand x n h)
termination_by sizeOf a

theorem raise {r : Expr} (hr : Expr.raise a b = .ok r)
    (hplain : b.exponent = .ok none → Q (.pow a b))
    (hwhole : ∀ n, b.exponent = .ok (some n) → I a n) : Q r := by
  rcases raise_eq_ok.mp hr with ⟨n, hn, rfl⟩ | ⟨hnone, rfl⟩
  · exact hQ.raiseInt hpower hfactor hradicand (hwhole n hn)
  · exact hplain hnone

end Powers

end Inherited

end Expr

end ExactCalc
