import ExactCalc.Proofs.Simplify.NormalForm

/-!
# Reduced Roots

What the root of a positive number that is no square is reduced to: a positive
coefficient and the root of a whole number that is no square either and that no
square looked for divides, the square of the one times the other being the
number.

Square factors are looked for by a loop that divides the number it is bounded
by: it goes on for as long as the square of the next factor is no greater than
what is left. That it stops early loses nothing. The square of a factor that was
not reached is greater than what is left when the loop stops, so it does not
divide it, and what is left does not change any more. So the loop does what
going through all factors up to the largest one does, and of that it is known
that it keeps the number and that a square once taken out stays out.

## Main definitions

* `SquareRoot.trial`: The loop, from a factor on.
* `Expr.ReducesTo`: The coefficient and the radicand of a reduced root.

## Theorems

* `SquareRoot.foldl_eq_trial`: The loop takes out what all factors from there on
  take out.
* `SquareRoot.squareFactors_eq_trial`: The square factors are those the loop
  takes out.
* `Expr.reducesTo_trial`: What the loop leaves is reduced.
* `Expr.reducedRoot_exact`: What the root of a number is reduced to.
-/

namespace ExactCalc

namespace SquareRoot

/-- Takes the squares of the factors from `f` on out of `n`, multiplying `k` by
    each of the factors, for as long as the square of the next one is no greater
    than what is left. -/
def trial (f n k : Nat) : Nat × Nat :=
  if f ≤ largestFactor ∧ f * f ≤ n then
    trial (f + 1) (stripSquare f n k).1 (stripSquare f n k).2
  else (n, k)
termination_by largestFactor + 1 - f

/-- A square that is greater than the number is not taken out of it. -/
theorem stripSquare_of_lt {f n : Nat} (k : Nat) (h : n < f * f) : stripSquare f n k = (n, k) := by
  rw [stripSquare, dif_neg]
  rintro ⟨-, hpos, hmod⟩
  rw [Nat.mod_eq_of_lt h] at hmod
  omega

/-- The loop takes out what all factors from there on take out. -/
theorem foldl_eq_trial (f n k : Nat) :
    (List.range' f (largestFactor + 1 - f)).foldl (fun m g => stripSquare g m.1 m.2) (n, k) =
      trial f n k := by
  fun_induction trial f n k with
  | case1 f n k h ih =>
      have hcount : largestFactor + 1 - f = largestFactor + 1 - (f + 1) + 1 := by omega
      rw [hcount, List.range'_succ, List.foldl_cons]
      exact ih
  | case2 f n k h =>
      -- Where a factor is left, the loop stopped because its square is too large,
      -- and so are the squares after it.
      refine foldl_stripSquare_eq_self (fun g hg => stripSquare_of_lt k ?_)
      rw [List.mem_range'_1] at hg
      have hlt : n < f * f := Nat.not_le.mp (fun hle => h ⟨by omega, hle⟩)
      exact hlt.trans_le (Nat.mul_le_mul hg.1 hg.1)

/-- The square factors of a number are those the loop takes out of it. -/
theorem squareFactors_eq_trial (n : Nat) : squareFactors n = trial 2 n 1 :=
  foldl_eq_trial 2 n 1

end SquareRoot

namespace Expr

/-- The root of `q` is `c` times the root of `m`, where `m` is no square and no
    square looked for divides it. -/
structure ReducesTo (q c : Rat) (m : Nat) : Prop where
  coefficient_pos : 0 < c
  radicand_pos : 0 < m
  not_square : ¬IsSquare m
  sq_mul : c ^ 2 * m = q
  not_dvd : ∀ f, 2 ≤ f → f ≤ 1000 → ¬f ^ 2 ∣ m

/-- What the loop leaves of a number that is no square is reduced, what it took
    out being put over the denominator. -/
theorem reducesTo_trial {q : Rat} {m k : Nat} (hq : 0 < q) (hsquare : ¬IsSquare q)
    (h : SquareRoot.trial 2 (q.num.natAbs * q.den) 1 = (m, k)) :
    ReducesTo q (k / q.den) m := by
  rw [← SquareRoot.squareFactors_eq_trial] at h
  have hwhole : 0 < q.num.natAbs * q.den := SquareRoot.natAbs_mul_den_pos hq.ne'
  have hspec := SquareRoot.squareFactors_spec (q.num.natAbs * q.den)
  have hroot := SquareRoot.factor_sq_mul hq.le
  have hleft := SquareRoot.not_isSquare_squareFactors hq.le hsquare
  have hreduced := SquareRoot.reduced_squareFactors hwhole
  rw [h] at hspec hroot hleft hreduced
  -- Neither part is zero, since their product is not.
  rw [← hspec] at hwhole
  have hm : 0 < m := Nat.pos_of_mul_pos_right hwhole
  have hk : 0 < k := Nat.pos_of_mul_pos_right (Nat.pos_of_mul_pos_left hwhole)
  refine ⟨by positivity, hm, hleft, ?_, fun f hlt hle hdvd => ?_⟩
  · rwa [Rat.mkRat_eq_div, Int.cast_natCast] at hroot
  · rw [pow_two] at hdvd
    exact hreduced f hlt hle hdvd

/-- The root of a positive number that is no square is reduced to a coefficient,
    dropped where it is one, and a root, both as the loop leaves them. -/
theorem reducedRoot_exact {q : Rat} (hq : 0 < q) (hsquare : ¬IsSquare q) :
    ∃ (c : Rat) (m k : Nat), SquareRoot.trial 2 (q.num.natAbs * q.den) 1 = (m, k) ∧
      c = k / q.den ∧
      reducedRoot q = (if c = 1 then .sqrt (.rat m) else .mul (.rat c) (.sqrt (.rat m))) ∧
      ReducesTo q c m := by
  rcases htrial : SquareRoot.trial 2 (q.num.natAbs * q.den) 1 with ⟨m, k⟩
  have hreduces : ReducesTo q (k / q.den) m := reducesTo_trial hq hsquare htrial
  refine ⟨k / q.den, m, k, rfl, rfl, ?_, hreduces⟩
  rw [reducedRoot, SquareRoot.squareFactors_eq_trial, htrial]
  simp only
  rw [Rat.mkRat_one, Rat.mkRat_eq_div, Int.cast_natCast, Int.cast_natCast,
    withCoefficient_of_bare (bare_sqrt _), if_neg hreduces.coefficient_pos.ne']

/-- Of the root of eight ninths times the square of `1009`, a prime above the
    largest factor, two thirds come out and the prime stays. -/
theorem reducedRoot_exact_prime :
    (0 : Rat) < 8144648 / 9 ∧ ¬IsSquare (8144648 / 9 : Rat) ∧
      reducedRoot (8144648 / 9) = .mul (.rat (2 / 3)) (.sqrt (.rat 2036162)) ∧
      ReducesTo (8144648 / 9) (2 / 3) 2036162 := by
  have hpos : (0 : Rat) < 8144648 / 9 := by decide +kernel
  have hsquare : ¬IsSquare (8144648 / 9 : Rat) :=
    SquareRoot.ofSquare?_eq_none.mp (by decide +kernel)
  rcases reducedRoot_exact hpos hsquare with ⟨c, m, k, htrial, hc, hroot, hreduces⟩
  have hloop : SquareRoot.trial 2 ((8144648 / 9 : Rat).num.natAbs * (8144648 / 9 : Rat).den) 1 =
      (2036162, 6) := by decide +kernel
  rw [hloop, Prod.mk.injEq] at htrial
  rcases htrial with ⟨rfl, rfl⟩
  have htwo : c = 2 / 3 := by
    rw [hc]
    decide +kernel
  subst htwo
  rw [if_neg (by decide +kernel)] at hroot
  exact ⟨hpos, hsquare, hroot, hreduces⟩

end Expr

end ExactCalc
