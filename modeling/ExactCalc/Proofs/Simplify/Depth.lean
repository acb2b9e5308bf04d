import ExactCalc.Proofs.Simplify.NormalForm

/-!
# Depth of a Simplified Tree

A simplified tree is less than twice as deep as the tree it comes from.

What makes a tree deeper is a rational factor that a rule puts in front of what
is left: a square factor taken out of a root, the denominator made rational, a
coefficient raised on its own. A factor is a level of its own, and every
operation of a tree may get one. But the factors do not pile up, because the
combining functions take those of their operands off before they look at
anything else and put a single one in front of the result.

So the depth to follow is not that of a tree but that of the rest beside its
factor. A combining function makes it at most one level more than its operands
are deep, and the factor is at most one level more again. That is two levels for
each operation on the way down, and one for the leaf at its end.

## Main definitions

* `Expr.restDepth`: The depth of a tree without its rational factor.

## Theorems

* `depth_le_restDepth`: A factor is one level.
* `restDepth_withCoefficient`: Putting a factor in front adds nothing to the rest.
* `restDepth_root`, `restDepth_modulus`, `restDepth_plus`, `restDepth_minus`,
  `restDepth_times`, `restDepth_quotient`, `restDepth_raise`: The combining
  functions add one level to it.
* `Simplifies.depth_le`, `depth_simplify_le`: The depth of a simplified tree.
-/

namespace ExactCalc

namespace Expr

/-- The depth of a tree without its rational factor, a number being a leaf. -/
def restDepth (e : Expr) : Nat := (coefficient e).2.elim 1 depth

section Factors

variable {e x : Expr} {c : Rat}

@[simp] theorem restDepth_scaled (c : Rat) (x : Expr) : restDepth (.mul (.rat c) x) = x.depth := rfl

theorem depth_rest (h : coefficient e = (c, some x)) : x.depth = restDepth e := by
  rw [restDepth, h]
  rfl

theorem restDepth_of_bare (h : Bare e) : restDepth e = e.depth := (depth_rest h).symm

/-- A tree is a number, has a rational factor, or has none. -/
theorem coefficient_cases (e : Expr) :
    (∃ q, e = .rat q) ∨ (∃ c x, e = .mul (.rat c) x) ∨ Bare e := by
  unfold Bare coefficient
  split
  · exact .inl ⟨_, rfl⟩
  · exact .inr (.inl ⟨_, _, rfl⟩)
  · exact .inr (.inr rfl)

theorem restDepth_le_depth (e : Expr) : restDepth e ≤ e.depth := by
  rcases coefficient_cases e with ⟨q, rfl⟩ | ⟨c, x, rfl⟩ | hbare
  · exact le_rfl
  · simp only [restDepth_scaled, depth]
    omega
  · exact (restDepth_of_bare hbare).le

/-- A rational factor is one level. -/
theorem depth_le_restDepth (e : Expr) : e.depth ≤ restDepth e + 1 := by
  rcases coefficient_cases e with ⟨q, rfl⟩ | ⟨c, x, rfl⟩ | hbare
  · exact Nat.le_succ 1
  · have hpos := x.depth_pos
    simp only [restDepth_scaled, depth]
    omega
  · rw [restDepth_of_bare hbare]
    exact Nat.le_succ _

/-- Putting a factor in front adds nothing to the rest, whose own factor is merged
    in. -/
theorem restDepth_withCoefficient (c : Rat) (rest : Option Expr) :
    restDepth (withCoefficient c rest) ≤ rest.elim 1 restDepth := by
  rcases rest with _ | e
  · exact le_rfl
  unfold withCoefficient
  rcases hcoef : coefficient e with ⟨d, _ | x⟩
  · have he : restDepth e = 1 := by
      rw [restDepth, hcoef]
      rfl
    simp only [hcoef, Option.elim_some, he]
    exact le_rfl
  have hx := depth_rest hcoef
  simp only [hcoef, Option.elim_some, ← hx]
  by_cases h0 : c * d = 0
  · rw [if_pos h0]
    exact x.depth_pos
  by_cases h1 : c * d = 1
  · -- Without a factor the rest stands alone, and what is beside a factor of its own counts.
    rw [if_neg h0, if_pos h1]
    exact restDepth_le_depth x
  · rw [if_neg h0, if_neg h1]
    exact le_rfl

end Factors

section Combining

variable (a b x : Expr)

/-- The root of a number has its factors in front of a root of a leaf. -/
theorem restDepth_root : restDepth (root x) ≤ x.depth + 1 := by
  by_cases hrat : ∃ q, x = .rat q
  · rcases hrat with ⟨q, rfl⟩
    rw [root]
    split
    · exact Nat.le_succ 1
    · by_cases hneg : q < 0
      · rw [if_pos hneg]
        exact le_rfl
      · rw [if_neg hneg, reducedRoot]
        rcases SquareRoot.squareFactors _ with ⟨n, k⟩
        exact restDepth_withCoefficient _ _
  · rw [root_of_not_rat (fun q hq => hrat ⟨q, hq⟩)]
    exact le_rfl

theorem restDepth_modulus : restDepth (modulus x) ≤ x.depth + 1 := by
  cases x with
  | rat q => exact Nat.le_succ 1
  | pi => exact Nat.le_succ 1
  | sqrt y | abs y => exact Nat.le_succ _
  | _ => exact le_rfl

theorem restDepth_product : restDepth (product a b) ≤ max a.depth b.depth + 1 := by
  have hplain : restDepth (.mul a b) ≤ max a.depth b.depth + 1 := restDepth_le_depth (.mul a b)
  unfold product
  split
  · rename_i u v
    by_cases huv : u = v
    · -- The radicand is left, two levels below the product.
      have hu := restDepth_le_depth u
      rw [if_pos huv]
      simp only [depth]
      omega
    rw [if_neg huv]
    split
    · rename_i p q
      by_cases hneg : p < 0 ∨ q < 0
      · rw [if_pos hneg]
        exact hplain
      · rw [if_neg hneg]
        exact (restDepth_root _).trans (by simp only [depth]; omega)
    · exact hplain
  · exact hplain

theorem restDepth_plus : restDepth (plus a b) ≤ max a.depth b.depth + 1 := by
  have ha := restDepth_le_depth a
  have hb := restDepth_le_depth b
  rcases plus_cases a b with h | ⟨q, h⟩ | h | h <;> rw [h]
  · exact le_rfl
  · exact Nat.le_add_left 1 _
  · omega
  · omega

theorem restDepth_minus : restDepth (minus a b) ≤ max a.depth b.depth + 1 := by
  have ha := restDepth_le_depth a
  rcases minus_cases a b with h | ⟨q, h⟩ | h <;> rw [h]
  · exact le_rfl
  · exact Nat.le_add_left 1 _
  · omega

theorem restDepth_times : restDepth (times a b) ≤ max (restDepth a) (restDepth b) + 1 := by
  unfold times
  rcases hcoefA : coefficient a with ⟨p, x⟩
  rcases hcoefB : coefficient b with ⟨q, y⟩
  refine (restDepth_withCoefficient _ _).trans ?_
  -- What is left beside the coefficients is the rest of one factor or the product of both.
  rcases x with _ | x <;> rcases y with _ | y
  · exact Nat.le_add_left 1 _
  · have hy := restDepth_le_depth y
    rw [depth_rest hcoefB] at hy
    simp only [Option.elim_some]
    omega
  · have hx := restDepth_le_depth x
    rw [depth_rest hcoefA] at hx
    simp only [Option.elim_some]
    omega
  · rw [← depth_rest hcoefA, ← depth_rest hcoefB]
    exact restDepth_product x y

/-- A number goes into the factor of a product, so it adds no level. -/
theorem restDepth_times_rat (c : Rat) (e : Expr) : restDepth (times (.rat c) e) ≤ restDepth e := by
  rw [times_rat]
  refine (restDepth_withCoefficient _ _).trans ?_
  rcases hcoef : coefficient e with ⟨d, _ | x⟩
  · rw [restDepth, hcoef]
    exact le_rfl
  · rw [← depth_rest hcoef]
    exact restDepth_le_depth x

theorem restDepth_quotient : restDepth (quotient a b) ≤ max a.depth b.depth + 1 := by
  have hpos := a.depth_pos
  -- Whatever root a quotient of roots leaves, it is the root of a number.
  have hroot : ∀ q, restDepth (root (.rat q)) ≤ max a.depth b.depth + 1 := fun q =>
    (restDepth_root _).trans (by simp only [depth]; omega)
  rcases quotient_cases a b with h | ⟨q, h⟩ | h <;> rw [h]
  · exact le_rfl
  · exact hroot q
  rcases plainQuotient_cases a b with h | ⟨q, h⟩ | ⟨c, h⟩ | ⟨c, q, h⟩ <;> rw [h]
  · exact le_rfl
  · exact Nat.le_add_left 1 _
  · have ha := restDepth_le_depth a
    refine (restDepth_withCoefficient c (some a)).trans ?_
    simp only [Option.elim_some]
    omega
  · exact (restDepth_times_rat c _).trans (hroot q)

/-- A whole power moves on to ever smaller parts of its base and is left in place
    on one of them. -/
theorem restDepth_raiseInt (a : Expr) (n : Int) : restDepth (raiseInt a n) ≤ a.depth + 1 := by
  rcases raiseInt_cases a n with h | ⟨q, h⟩ | h | ⟨c, x, rfl, h⟩ | ⟨x, rfl, -, h⟩ <;> rw [h]
  · have hpos := a.depth_pos
    have hpow : restDepth (.pow a (.rat (mkRat n 1))) = max a.depth 1 + 1 := rfl
    omega
  · exact Nat.le_add_left 1 _
  · exact (restDepth_le_depth a).trans (Nat.le_succ _)
  -- The last two cases move on to a part of the base, which is smaller and less deep.
  · have hx := (restDepth_times_rat (Rational.powInt c n) _).trans (restDepth_raiseInt x n)
    simp only [depth]
    omega
  · have hx := restDepth_raiseInt x (n / 2)
    simp only [depth]
    omega
termination_by sizeOf a

theorem restDepth_raise {r : Expr} (h : raise a b = .ok r) :
    restDepth r ≤ max a.depth b.depth + 1 := by
  rcases raise_eq_ok.mp h with ⟨n, -, rfl⟩ | ⟨-, rfl⟩
  · exact (restDepth_raiseInt a n).trans (Nat.succ_le_succ (le_max_left _ _))
  · exact le_rfl

end Combining

section Trees

/-- An operation is two levels: one for itself and one for a factor. -/
theorem depth_le_of_restDepth {e : Expr} {n d : Nat} (hrest : restDepth e ≤ n + 1)
    (hn : n ≤ 2 * d - 1) (hd : 0 < d) : e.depth ≤ 2 * (d + 1) - 1 := by
  have hfactor := depth_le_restDepth e
  omega

theorem depth_le_of_operands {a b a' b' r : Expr}
    (hrest : restDepth r ≤ max a'.depth b'.depth + 1)
    (ha : a'.depth ≤ 2 * a.depth - 1) (hb : b'.depth ≤ 2 * b.depth - 1) :
    r.depth ≤ 2 * (max a.depth b.depth + 1) - 1 := by
  have hpos := a.depth_pos
  exact depth_le_of_restDepth hrest (by omega) (by omega)

theorem Simplifies.depth_le {e s : Expr} (h : Simplifies e s) : s.depth ≤ 2 * e.depth - 1 := by
  induction h with
  | rat | pi | var => exact le_rfl
  | @sqrt x _ _ ih => exact depth_le_of_restDepth (restDepth_root _) ih x.depth_pos
  | @abs x _ _ ih => exact depth_le_of_restDepth (restDepth_modulus _) ih x.depth_pos
  | add _ _ iha ihb => exact depth_le_of_operands (restDepth_plus _ _) iha ihb
  | sub _ _ iha ihb => exact depth_le_of_operands (restDepth_minus _ _) iha ihb
  | @mul _ _ a' b' _ _ iha ihb =>
      -- A product looks at the rests of its operands only, which are no deeper than these.
      have ha := restDepth_le_depth a'
      have hb := restDepth_le_depth b'
      exact depth_le_of_operands ((restDepth_times _ _).trans (by omega)) iha ihb
  | div _ _ iha ihb => exact depth_le_of_operands (restDepth_quotient _ _) iha ihb
  | pow _ _ hr iha ihb => exact depth_le_of_operands (restDepth_raise _ _ hr) iha ihb

/-- A tree in which no power overflows is simplified, and its simplified form is less
    than twice as deep. -/
theorem depth_simplify_le (e : Expr) :
    (∃ s, e.simplify = .ok s ∧ s.depth ≤ 2 * e.depth - 1) ↔ e.Contained := by
  rw [← simplify_isOk]
  constructor
  · rintro ⟨s, hs, -⟩
    exact ⟨s, hs⟩
  · rintro ⟨s, hs⟩
    exact ⟨s, hs, (simplify_eq_ok.mp hs).depth_le⟩

-- The bound is reached, since `√8` becomes `2·√2`.
example : (Expr.sqrt (.rat 8)).simplify.map depth = .ok (2 * (Expr.sqrt (.rat 8)).depth - 1) := by
  decide +kernel

end Trees

end Expr

end ExactCalc
