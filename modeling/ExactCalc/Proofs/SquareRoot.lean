import ExactCalc.SquareRoot
import Mathlib.Algebra.Order.Field.Basic
import Mathlib.Data.Nat.Sqrt
import Mathlib.Data.Rat.Cast.Order
import Mathlib.Data.Rat.Lemmas
import Mathlib.Tactic.Linarith
import Mathlib.Tactic.Positivity
import Mathlib.Tactic.Ring

/-!
# Exactness of Square Roots

What is found by the search for a root squares back to what the search was for,
and the search misses no root.

`natOfSquare?` checks its candidate, so nothing about Newton's iteration is
needed to trust a root it reports. That it misses none rests on the iteration: a
step never falls below the whole part of the root, so wherever the iteration ends
there is no way up, and going down ends at the whole part.

Taking out square factors is a fold of `stripSquare`, each step of which keeps
the product of what is left and the square of what was taken; so the whole fold
does. What is left only ever shrinks to a divisor, so a square that one step has
taken out stays out.

## Main definitions

* `Reduced`: A number without square factors, as far as they are looked for.

## Theorems

* `sq_of_natOfSquare?`: A reported root of a natural number squares to it.
* `ofSquare?_spec`: A reported root of a rational is its non-negative root.
* `squareFactors_spec`, `factor_sq_mul`: Taking out all square factors keeps the
  number, and its root.
* `not_isSquare_squareFactors`: What is left of no square is no square.
* `floor_eq_sqrt`: The iteration ends at the whole part of the root.
* `ofSquare?_eq_none`, `ofSquare?_eq_some`: The search fails of no rational
  square, and finds its non-negative root.
* `reduced_squareFactors`, `squareFactors_of_reduced`: Square factors are taken
  out once and for all.
-/

namespace ExactCalc

namespace SquareRoot

theorem sq_of_natOfSquare? {n s : Nat} (h : natOfSquare? n = some s) : s * s = n := by
  unfold natOfSquare? at h
  by_cases hs : floor n * floor n = n
  · rw [if_pos hs, Option.some.injEq] at h
    rw [← h]
    exact hs
  · rw [if_neg hs] at h
    cases h

/-- A reported root of a rational number is its non-negative root. -/
theorem ofSquare?_spec {q s : Rat} (h : ofSquare? q = some s) : 0 ≤ s ∧ s ^ 2 = q := by
  unfold ofSquare? at h
  by_cases hneg : q.num < 0
  · rw [if_pos hneg] at h
    cases h
  rw [if_neg hneg] at h
  rcases hn : natOfSquare? q.num.natAbs with _ | n
  · simp only [hn, reduceCtorEq] at h
  rcases hd : natOfSquare? q.den with _ | d
  · simp only [hn, hd, reduceCtorEq] at h
  simp only [hn, hd, Option.some.injEq] at h
  have hs : s = (n : Rat) / d := by
    rw [← h, Rat.mkRat_eq_div, Int.cast_natCast]
  -- The root is reported from those of the numerator and the denominator.
  have hnum : (n : Rat) * n = (q.num : Rat) := by
    have habs : (q.num.natAbs : Int) = q.num := Int.natAbs_of_nonneg (by omega)
    rw [← habs, ← sq_of_natOfSquare? hn]
    push_cast
    ring
  have hden : (d : Rat) * d = (q.den : Rat) := by
    rw [← sq_of_natOfSquare? hd]
    push_cast
    ring
  refine ⟨by rw [hs]; positivity, ?_⟩
  calc s ^ 2 = (n * n : Rat) / (d * d) := by rw [hs]; ring
    _ = q.num / q.den := by rw [hnum, hden]
    _ = q := Rat.num_div_den q

/-- Taking out all square factors keeps the number. -/
theorem squareFactors_spec (n : Nat) :
    (squareFactors n).1 * ((squareFactors n).2 * (squareFactors n).2) = n := by
  -- Each step keeps the product, so the fold keeps it from any start.
  have hfold : ∀ (fs : List Nat) (m : Nat × Nat),
      let r := fs.foldl (fun m f => stripSquare f m.1 m.2) m
      r.1 * (r.2 * r.2) = m.1 * (m.2 * m.2) := by
    intro fs
    induction fs with
    | nil => exact fun m => rfl
    | cons f fs ih =>
        intro m
        exact (ih (stripSquare f m.1 m.2)).trans (stripSquare_spec f m.1 m.2)
  have hwhole := hfold (List.range' 2 (largestFactor - 1)) (n, 1)
  rw [Nat.mul_one, Nat.mul_one] at hwhole
  exact hwhole

/-- The root of a number is the factor taken out of it, over the denominator, times
    the root of what is left. -/
theorem factor_sq_mul {q : Rat} (hq : 0 ≤ q) :
    (mkRat (squareFactors (q.num.natAbs * q.den)).2 q.den) ^ 2 *
      (squareFactors (q.num.natAbs * q.den)).1 = q := by
  have hspec := squareFactors_spec (q.num.natAbs * q.den)
  generalize (squareFactors (q.num.natAbs * q.den)).1 = n at hspec ⊢
  generalize (squareFactors (q.num.natAbs * q.den)).2 = k at hspec ⊢
  have hden : (q.den : Rat) ≠ 0 := Nat.cast_ne_zero.mpr q.den_ne_zero
  have hnum : (q.num.natAbs : Rat) = q.num := by
    have habs : (q.num.natAbs : Int) = q.num := Int.natAbs_of_nonneg (Rat.num_nonneg.mpr hq)
    rw [← Int.cast_natCast, habs]
  have hprod : (n : Rat) * (k * k) = q.num * q.den := by
    rw [← hnum]
    exact_mod_cast hspec
  calc (mkRat k q.den) ^ 2 * (n : Rat)
      = n * (k * k) / (q.den * q.den) := by rw [Rat.mkRat_eq_div, Int.cast_natCast]; ring
    _ = q.num / q.den := by rw [hprod, mul_div_mul_right _ _ hden]
    _ = q := Rat.num_div_den q

/-- Of a number that is no square no square is left. -/
theorem not_isSquare_squareFactors {q : Rat} (hq : 0 ≤ q) (hsquare : ¬IsSquare q) :
    ¬IsSquare (squareFactors (q.num.natAbs * q.den)).1 := by
  -- A square that is left would make the number one, with what was taken out.
  intro hleft
  refine hsquare ?_
  rw [← factor_sq_mul hq]
  exact (IsSquare.sq _).mul (Rat.isSquare_natCast_iff.mpr hleft)

theorem natAbs_mul_den_pos {q : Rat} (hq : q ≠ 0) : 0 < q.num.natAbs * q.den :=
  Nat.mul_pos (Int.natAbs_pos.mpr (Rat.num_ne_zero.mpr hq)) q.den_pos

/-- Newton's step never falls below the whole part of the root. -/
theorem lt_newton_sq (n y : Nat) (hy : 0 < y) :
    n < ((y + n / y) / 2 + 1) * ((y + n / y) / 2 + 1) := by
  -- Twice the bound exceeds the sum of `y` and a number that times `y` exceeds `n`.
  have hn : n < y * (n / y + 1) := Nat.lt_mul_div_succ n hy
  generalize n / y = q at hn ⊢
  have hs : y + (q + 1) ≤ 2 * ((y + q) / 2 + 1) := by omega
  generalize (y + q) / 2 + 1 = s at hs ⊢
  have hsq : (y + (q + 1)) * (y + (q + 1)) ≤ 2 * s * (2 * s) := Nat.mul_le_mul hs hs
  nlinarith [sq_nonneg ((y : Int) - (q + 1))]

/-- There is no way up from a number that is not below the whole part. -/
theorem climb_eq_self {n z : Nat} (h : n < (z + 1) * (z + 1)) : climb n z = z := by
  rw [climb, if_neg (Nat.not_le.mpr h)]

/-- Going down ends at the whole part of the root. -/
theorem retreat_eq_sqrt {n z : Nat} (h : n < (z + 1) * (z + 1)) : retreat n z = Nat.sqrt n := by
  fun_induction retreat n z with
  | case1 z hlt ih =>
      refine ih ?_
      have hz : z ≠ 0 := fun h0 => Nat.not_lt_zero n (by rwa [h0] at hlt)
      rwa [Nat.sub_add_cancel (Nat.one_le_iff_ne_zero.mpr hz)]
  | case2 z hge => exact Nat.eq_sqrt.mpr ⟨Nat.not_lt.mp hge, h⟩

theorem descend_eq_sqrt (n y : Nat) (hn : 0 < n) (hpos : 0 < y) :
    descend n y = Nat.sqrt n := by
  fun_induction descend n y with
  | case1 y next hlt ih =>
      refine ih (Nat.pos_of_ne_zero fun h0 => ?_)
      -- A guess of zero would be below the root of a positive number.
      have hnext : n < (next + 1) * (next + 1) := lt_newton_sq n y hpos
      rw [h0] at hnext
      omega
  | case2 y next hge =>
      have hnext : n < (next + 1) * (next + 1) := lt_newton_sq n y hpos
      rw [climb_eq_self hnext, retreat_eq_sqrt hnext]

theorem floor_eq_sqrt (n : Nat) : floor n = Nat.sqrt n := by
  unfold floor
  by_cases hn : n = 0
  · rw [if_pos hn, hn, Nat.sqrt_zero]
  · rw [if_neg hn]
    exact descend_eq_sqrt n (startGuess n) (Nat.pos_of_ne_zero hn) (Nat.pow_pos (by decide))

/-- The search for a root fails of no square. -/
@[simp] theorem natOfSquare?_eq_none {n : Nat} : natOfSquare? n = none ↔ ¬IsSquare n := by
  have hsquare : IsSquare n ↔ floor n * floor n = n := by
    rw [floor_eq_sqrt, ← Nat.exists_mul_self]
    exact ⟨fun ⟨s, hs⟩ => ⟨s, hs.symm⟩, fun ⟨s, hs⟩ => ⟨s, hs.symm⟩⟩
  unfold natOfSquare?
  by_cases hs : floor n * floor n = n
  · simp only [hs, if_true, reduceCtorEq, false_iff, not_not]
    exact hsquare.mpr hs
  · simp only [hs, if_false, true_iff]
    exact fun h => hs (hsquare.mp h)

/-- No root of a rational number is missed. -/
@[simp] theorem ofSquare?_eq_none {q : Rat} : ofSquare? q = none ↔ ¬IsSquare q := by
  rcases hs : ofSquare? q with _ | s
  · refine iff_of_true rfl (fun hq => ?_)
    -- The numerator and the denominator of a square are squares, so both searches succeed.
    rcases Rat.isSquare_iff.mp hq with ⟨hnum, hden⟩
    have hneg : ¬q.num < 0 := not_lt.mpr hnum.nonneg
    have habs : IsSquare q.num.natAbs := by
      rcases hnum with ⟨s, hs⟩
      exact ⟨s.natAbs, by rw [hs, Int.natAbs_mul]⟩
    unfold ofSquare? at hs
    rw [if_neg hneg] at hs
    rcases hn : natOfSquare? q.num.natAbs with _ | n
    · exact natOfSquare?_eq_none.mp hn habs
    rcases hd : natOfSquare? q.den with _ | d
    · exact natOfSquare?_eq_none.mp hd hden
    rw [hn, hd] at hs
    cases hs
  · refine iff_of_false (by simp) (fun hq => hq ⟨s, ?_⟩)
    rw [← (ofSquare?_spec hs).2, pow_two]

/-- What is found is the non-negative root of a rational square, and of nothing
    else. -/
@[simp] theorem ofSquare?_eq_some {q s : Rat} : ofSquare? q = some s ↔ 0 ≤ s ∧ s ^ 2 = q := by
  constructor
  · exact ofSquare?_spec
  · rintro ⟨hs, rfl⟩
    rcases hfound : ofSquare? (s ^ 2) with _ | t
    · exact absurd (IsSquare.sq s) (ofSquare?_eq_none.mp hfound)
    · -- Two numbers that are not negative and have one square are one.
      rcases ofSquare?_spec hfound with ⟨ht, hsq⟩
      rw [(sq_eq_sq₀ ht hs).mp hsq]

/-- No square of a factor looked for divides the number. -/
def Reduced (n : Nat) : Prop :=
  ∀ f, 1 < f → f ≤ largestFactor → ¬f * f ∣ n

theorem stripSquare_dvd (f n k : Nat) : (stripSquare f n k).1 ∣ n := by
  fun_induction stripSquare f n k with
  | case1 n k h ih =>
      exact ih.trans (Nat.div_dvd_of_dvd (Nat.dvd_of_mod_eq_zero h.2.2))
  | case2 => exact Nat.dvd_refl _

theorem not_dvd_stripSquare {f n : Nat} (k : Nat) (hf : 1 < f) (hn : 0 < n) :
    ¬f * f ∣ (stripSquare f n k).1 := by
  fun_induction stripSquare f n k with
  | case1 n k h ih =>
      have hdvd := Nat.dvd_of_mod_eq_zero h.2.2
      exact ih (Nat.div_pos (Nat.le_of_dvd hn hdvd) (Nat.mul_pos (by omega) (by omega)))
  | case2 n k h =>
      intro hdvd
      exact h ⟨hf, hn, Nat.mod_eq_zero_of_dvd hdvd⟩

theorem stripSquare_eq_self {f n : Nat} (k : Nat) (h : ¬f * f ∣ n) :
    stripSquare f n k = (n, k) := by
  rw [stripSquare, dif_neg]
  rintro ⟨-, -, hmod⟩
  exact h (Nat.dvd_of_mod_eq_zero hmod)

/-- Taking several factors out leaves a divisor that no square of them divides. -/
theorem foldl_stripSquare (fs : List Nat) (n k : Nat) (hn : 0 < n) :
    (fs.foldl (fun m f => stripSquare f m.1 m.2) (n, k)).1 ∣ n ∧
      ∀ f ∈ fs, 1 < f → ¬f * f ∣ (fs.foldl (fun m f => stripSquare f m.1 m.2) (n, k)).1 := by
  induction fs generalizing n k with
  | nil => exact ⟨Nat.dvd_refl n, fun f hf => absurd hf List.not_mem_nil⟩
  | cons g gs ih =>
      have hdvd := stripSquare_dvd g n k
      rcases ih (stripSquare g n k).1 (stripSquare g n k).2 (Nat.pos_of_dvd_of_pos hdvd hn) with
        ⟨hrest, hfree⟩
      refine ⟨hrest.trans hdvd, fun f hf hlt => ?_⟩
      rcases List.mem_cons.mp hf with rfl | hf
      · -- What one step has taken out, no later step puts back.
        exact fun h => not_dvd_stripSquare k hlt hn (h.trans hrest)
      · exact hfree f hf hlt

theorem mem_factors {f : Nat} :
    f ∈ List.range' 2 (largestFactor - 1) ↔ 1 < f ∧ f ≤ largestFactor := by
  rw [List.mem_range'_1, largestFactor]
  omega

/-- Once all square factors are taken out, none is left. -/
theorem reduced_squareFactors {n : Nat} (hn : 0 < n) : Reduced (squareFactors n).1 := by
  intro f hlt hle
  exact (foldl_stripSquare _ n 1 hn).2 f (mem_factors.mpr ⟨hlt, hle⟩) hlt

/-- Factors that one by one leave the number alone do so together. -/
theorem foldl_stripSquare_eq_self {fs : List Nat} {n k : Nat}
    (h : ∀ f ∈ fs, stripSquare f n k = (n, k)) :
    fs.foldl (fun m f => stripSquare f m.1 m.2) (n, k) = (n, k) := by
  induction fs with
  | nil => rfl
  | cons f fs ih =>
      rw [List.foldl_cons, h f List.mem_cons_self]
      exact ih (fun g hg => h g (List.mem_cons_of_mem f hg))

/-- Nothing is taken out of a number without square factors. -/
theorem squareFactors_of_reduced {n : Nat} (h : Reduced n) : squareFactors n = (n, 1) := by
  refine foldl_stripSquare_eq_self (fun f hf => stripSquare_eq_self 1 ?_)
  exact h f (mem_factors.mp hf).1 (mem_factors.mp hf).2

end SquareRoot

end ExactCalc
