import ExactCalc.FixedPoint
import Mathlib.Algebra.BigOperators.Ring.Finset
import Mathlib.Algebra.Order.BigOperators.Ring.Finset
import Mathlib.Algebra.Order.Floor.Semifield
import Mathlib.Data.Rat.Floor
import Mathlib.Order.Bounds.Basic
import Mathlib.Tactic.Linarith
import Mathlib.Tactic.Ring

/-!
# The Arctangent Series at a Scale

The series of the arctangent of `1 / q` stops at its first term below one unit of
the scale, and is off by less than one unit for each term it has taken and one
more for all those it has left out.

The sum is gathered term by term. `Series` is what has been come to on the way:
which term is next, its power of `q`, its sign, and the sum of the terms before
it. These go on together, and after `k` steps they are what `k` says. So the term
that is next after `k` steps is the scale divided by `(2k + 1) q ^ (2k + 1)`, and
as these denominators grow, the first of them above the scale is where the series
stops.

Every term that was taken is cut off, which loses less than a unit each time. The
terms that were left out alternate in sign and only get smaller, so however many
of them there are, together they are no more than the first one, and that is
less than a unit.

## Main definitions

* `Series`: What the series has come to.
* `Series.next`, `Series.after`: One term more, and so many.
* `Series.outcome`: The sum of the terms so far and of all that follow.
* `denominator`: The denominators of the series.
* `Series.reached`: What the series has come to after so many terms.

## Theorems

* `next_eq_none`: Where the series stops.
* `outcome_next`, `outcome_stopped`: Taking a term changes nothing about the
  outcome, and where there is none left the outcome is the sum.
* `next_reached`, `stopped_reached`, `after_reached`: One step, the last one, and
  a run.
* `alternating_sum`: An alternating sum is between zero and its first term.
* `abs_taken_le`, `abs_left_le`: What the two kinds of terms lose.
* `arctanInverse_near`: The arctangent at a scale.
-/

namespace ExactCalc

namespace FixedPoint

/-- What the series has come to: the number of the next term, the power of `q` in
    it, whether it is to be added, and the sum of the terms before it. -/
structure Series where
  index : Nat
  power : Nat
  positive : Bool
  sum : Int
  deriving DecidableEq, Repr

namespace Series

/-- The next term, cut off at the scale. -/
def term (scale : Nat) (s : Series) : Nat := scale / (s.power * (2 * s.index + 1))

/-- Takes the next term, unless nothing of it is left at the scale. -/
def next (q scale : Nat) (s : Series) : Option Series :=
  if s.term scale = 0 then none
  else some
    { index := s.index + 1
      power := s.power * q * q
      positive := !s.positive
      sum := if s.positive then s.sum + s.term scale else s.sum - s.term scale }

/-- Takes so many terms, if there are so many. -/
def after (q scale : Nat) : Nat → Series → Option Series
  | 0, s => some s
  | n + 1, s => (next q scale s).bind (after q scale n)

/-- Before the first term. -/
def start (q : Nat) : Series := ⟨0, q, true, 0⟩

/-- The sum of the terms so far and of all that follow. -/
def outcome (q scale : Nat) (s : Series) : Int :=
  if s.positive then s.sum + arctanTail q scale s.index s.power
  else s.sum - arctanTail q scale s.index s.power

section Outcome

variable {q scale : Nat} {s t : Series}

@[simp]
theorem outcome_start (q scale : Nat) : (start q).outcome q scale = arctanInverse q scale := by
  rw [outcome, start, if_pos rfl, Int.zero_add, arctanInverse]

/-- The series stops where nothing is left of the next term. -/
theorem next_eq_none : s.next q scale = none ↔ s.term scale = 0 := by
  rw [next]
  by_cases hzero : s.term scale = 0
  · simp only [hzero, if_true]
  · simp only [hzero, if_false, reduceCtorEq]

/-- Where the series stops, the sum is the outcome. -/
theorem outcome_stopped (h : s.next q scale = none) : s.outcome q scale = s.sum := by
  have hterm := next_eq_none.mp h
  have hzero : ¬(1 < q ∧ 0 < s.power ∧ 0 < s.term scale) := fun hall => by omega
  have htail : arctanTail q scale s.index s.power = 0 := by
    rw [arctanTail]
    exact dif_neg hzero
  rw [outcome, htail, Int.add_zero, Int.sub_zero, ite_self]

/-- Taking a term does not change the outcome. -/
theorem outcome_next (hq : 1 < q) (hpower : 0 < s.power) (h : s.next q scale = some t) :
    t.outcome q scale = s.outcome q scale := by
  have hterm : s.term scale ≠ 0 := by
    intro hzero
    rw [next_eq_none.mpr hzero] at h
    cases h
  have htail : arctanTail q scale s.index s.power =
      s.term scale - arctanTail q scale (s.index + 1) (s.power * q * q) := by
    rw [arctanTail]
    exact dif_pos ⟨hq, hpower, Nat.pos_of_ne_zero hterm⟩
  rw [next, if_neg hterm, Option.some.injEq] at h
  rw [← h, outcome, outcome, htail]
  -- The sign changes with the term, and the tail is taken off from what it belongs to.
  cases s.positive
  · simp only [Bool.not_false, if_true, Bool.false_eq_true, if_false]
    omega
  · simp only [Bool.not_true, if_true, Bool.false_eq_true, if_false]
    omega

end Outcome

end Series

section Denominators

/-- The denominator of a term of the series. -/
def denominator (q k : Nat) : Nat := (2 * k + 1) * q ^ (2 * k + 1)

variable {q : Nat} (hq : 0 < q)

include hq

theorem denominator_pos (k : Nat) : 0 < denominator q k :=
  Nat.mul_pos (Nat.succ_pos _) (Nat.pow_pos hq)

theorem denominator_mono : Monotone (denominator q) := fun i j hij =>
  Nat.mul_le_mul (by omega) (Nat.pow_le_pow_right hq (by omega))

theorem lt_denominator (k : Nat) : k < denominator q k := by
  have hfactor : 2 * k + 1 ≤ denominator q k := Nat.le_mul_of_pos_right _ (Nat.pow_pos hq)
  omega

/-- There is a first denominator above the scale. -/
theorem exists_isLeast (scale : Nat) : ∃ K, IsLeast {k | scale < denominator q k} K := by
  have hexists : ∃ k, scale < denominator q k := ⟨scale, lt_denominator hq scale⟩
  exact ⟨Nat.find hexists, Nat.find_spec hexists, fun k hk => Nat.find_min' hexists hk⟩

end Denominators

namespace Series

/-- What the series has come to after so many terms. -/
def reached (q scale k : Nat) : Series where
  index := k
  power := q ^ (2 * k + 1)
  positive := k % 2 = 0
  sum := ∑ j ∈ Finset.range k, (-1) ^ j * ((scale / denominator q j : Nat) : Int)

section Reached

variable {q scale : Nat} {k K : Nat}

@[simp] theorem term_reached : (reached q scale k).term scale = scale / denominator q k := by
  rw [term, denominator, Nat.mul_comm]
  rfl

@[simp] theorem reached_zero : reached q scale 0 = start q := by
  rw [reached, start, Finset.sum_range_zero, Nat.mul_zero, Nat.zero_add, Nat.pow_one]
  rfl

/-- The next term is taken if its denominator is not above the scale. -/
theorem next_reached (hq : 0 < q) (h : denominator q k ≤ scale) :
    (reached q scale k).next q scale = some (reached q scale (k + 1)) := by
  have hterm : (reached q scale k).term scale ≠ 0 := by
    rw [term_reached]
    exact (Nat.div_pos h (denominator_pos hq k)).ne'
  rw [next, if_neg hterm, term_reached]
  have hpower : q ^ (2 * k + 1) * q * q = q ^ (2 * (k + 1) + 1) := by ring
  -- The sign of the term is the parity of its number.
  rcases Nat.mod_two_eq_zero_or_one k with hk | hk
  · have hsucc : (k + 1) % 2 ≠ 0 := by omega
    have hsign : (-1 : Int) ^ k = 1 := (Nat.even_iff.mpr hk).neg_one_pow
    simp only [reached, hpower, hk, hsucc, Finset.sum_range_succ, hsign, decide_true, decide_false,
      Bool.not_true, if_true, Int.one_mul]
  · have hsucc : (k + 1) % 2 = 0 := by omega
    have hsign : (-1 : Int) ^ k = -1 := (Nat.odd_iff.mpr hk).neg_one_pow
    simp only [reached, hpower, hk, hsucc, Finset.sum_range_succ, hsign, one_ne_zero, decide_true,
      decide_false, Bool.not_false, Bool.false_eq_true, if_false, Int.neg_one_mul,
      Int.sub_eq_add_neg]

/-- The series stops before a term whose denominator is above the scale. -/
theorem stopped_reached (h : scale < denominator q k) :
    (reached q scale k).next q scale = none := by
  rw [next_eq_none, term_reached]
  exact Nat.div_eq_of_lt h

/-- So many terms are taken if the denominators of all of them are not above the
    scale, and the outcome stays the same. -/
theorem after_reached (hq : 1 < q) (n : Nat) (h : ∀ j < k + n, denominator q j ≤ scale) :
    after q scale n (reached q scale k) = some (reached q scale (k + n)) ∧
      (reached q scale (k + n)).outcome q scale = (reached q scale k).outcome q scale := by
  -- The induction is on the terms still to be taken, from wherever the series has come to.
  induction n generalizing k with
  | zero => exact ⟨rfl, rfl⟩
  | succ n ih =>
      have hstep := next_reached (Nat.zero_lt_of_lt hq) (h k (by omega))
      have hpower : 0 < (reached q scale k).power := Nat.pow_pos (Nat.zero_lt_of_lt hq)
      have hindex : k + 1 + n = k + (n + 1) := by omega
      have hrest := ih (k := k + 1) (by rwa [hindex])
      rw [hindex] at hrest
      rw [after, hstep, ← outcome_next hq hpower hstep]
      exact hrest

/-- The whole series takes the terms before the first denominator above the
    scale. -/
theorem after_start (hq : 1 < q) (hK : IsLeast {k | scale < denominator q k} K) :
    after q scale K (start q) = some (reached q scale K) ∧
      (reached q scale K).next q scale = none ∧
      (reached q scale K).sum = arctanInverse q scale := by
  have hbelow : ∀ j < 0 + K, denominator q j ≤ scale := fun j hj =>
    not_lt.mp (fun habove => absurd (hK.2 habove) (by omega))
  rcases after_reached (k := 0) hq K hbelow with ⟨hrun, houtcome⟩
  have hstop := stopped_reached hK.1
  rw [Nat.zero_add, reached_zero] at hrun houtcome
  rw [outcome_stopped hstop, outcome_start] at houtcome
  exact ⟨hrun, hstop, houtcome⟩

end Reached

end Series

section Losses

/-- An alternating sum of numbers that do not grow and are not negative is between
    zero and its first term. -/
theorem alternating_sum {f : Nat → Rat} (hf : Antitone f) (hnonneg : ∀ j, 0 ≤ f j) (m k : Nat) :
    0 ≤ ∑ j ∈ Finset.range m, (-1) ^ j * f (k + j) ∧
      ∑ j ∈ Finset.range m, (-1) ^ j * f (k + j) ≤ f k := by
  induction m generalizing k with
  | zero => exact ⟨le_rfl, hnonneg k⟩
  | succ m ih =>
      -- What follows the first term is an alternating sum that is taken off from it.
      have hrest : ∀ j, (-1 : Rat) ^ (j + 1) * f (k + (j + 1)) = -((-1) ^ j * f (k + 1 + j)) := by
        intro j
        rw [pow_succ, show k + (j + 1) = k + 1 + j by omega]
        ring
      have hnext := hf (Nat.le_succ k)
      rcases ih (k + 1) with ⟨hlow, hhigh⟩
      rw [Finset.sum_range_succ', Finset.sum_congr rfl (fun j _ => hrest j), Finset.sum_neg_distrib,
        pow_zero, one_mul]
      rw [show k + 0 = k from rfl]
      constructor <;> linarith only [hnext, hlow, hhigh]

theorem abs_neg_one_pow_mul (j : Nat) (x : Rat) : |(-1) ^ j * x| = |x| := by
  rw [abs_mul, abs_pow, abs_neg, abs_one, one_pow, one_mul]

/-- The terms that are taken lose a unit each at most. -/
theorem abs_taken_le (d : Nat → Nat) (scale K : Nat) :
    |∑ j ∈ Finset.range K, (-1 : Rat) ^ j * ((scale / d j : Nat) - (scale : Rat) / d j)| ≤ K := by
  have hterm : ∀ j, |(-1 : Rat) ^ j * ((scale / d j : Nat) - (scale : Rat) / d j)| ≤ 1 := by
    intro j
    have hnonneg : (0 : Rat) ≤ (scale : Rat) / d j := by positivity
    have hlow := Nat.floor_le hnonneg
    have hhigh := Nat.lt_floor_add_one ((scale : Rat) / d j)
    rw [Nat.floor_div_eq_div] at hlow hhigh
    rw [abs_neg_one_pow_mul, abs_le]
    constructor <;> linarith only [hlow, hhigh]
  calc |∑ j ∈ Finset.range K, (-1 : Rat) ^ j * ((scale / d j : Nat) - (scale : Rat) / d j)|
      ≤ ∑ j ∈ Finset.range K, |(-1 : Rat) ^ j * ((scale / d j : Nat) - (scale : Rat) / d j)| :=
        Finset.abs_sum_le_sum_abs _ _
    _ ≤ ∑ _j ∈ Finset.range K, (1 : Rat) := Finset.sum_le_sum (fun j _ => hterm j)
    _ = K := by rw [Finset.sum_const, Finset.card_range, nsmul_eq_mul, mul_one]

/-- The terms that are left out are together no more than the first of them. -/
theorem abs_left_le {d : Nat → Nat} (hd : Monotone d) (hpos : ∀ j, 0 < d j) (scale K m : Nat) :
    |∑ j ∈ Finset.range m, (-1 : Rat) ^ (K + j) * ((scale : Rat) / d (K + j))| ≤
      (scale : Rat) / d K := by
  have hanti : Antitone fun j => (scale : Rat) / d j := fun i j hij =>
    div_le_div_of_nonneg_left (Nat.cast_nonneg scale) (Nat.cast_pos.mpr (hpos i))
      (Nat.cast_le.mpr (hd hij))
  rcases alternating_sum hanti (fun j => by positivity) m K with ⟨hlow, hhigh⟩
  -- The sign of the first of them is the sign of all together, and goes with the modulus.
  have hsign : ∀ j, (-1 : Rat) ^ (K + j) * ((scale : Rat) / d (K + j)) =
      (-1) ^ K * ((-1) ^ j * ((scale : Rat) / d (K + j))) := fun j => by rw [pow_add, mul_assoc]
  rw [Finset.sum_congr rfl (fun j _ => hsign j), ← Finset.mul_sum, abs_neg_one_pow_mul,
    abs_of_nonneg hlow]
  exact hhigh

/-- What the terms taken have lost and the terms left out make up the difference to
    the series. -/
theorem series_difference (q scale K m : Nat) :
    ∑ j ∈ Finset.range K, (-1 : Rat) ^ j * (scale / denominator q j : Nat) -
        scale * ∑ j ∈ Finset.range (K + m), (-1 : Rat) ^ j / ((2 * j + 1) * q ^ (2 * j + 1)) =
      ∑ j ∈ Finset.range K,
        (-1 : Rat) ^ j * ((scale / denominator q j : Nat) - (scale : Rat) / denominator q j) -
      ∑ j ∈ Finset.range m, (-1 : Rat) ^ (K + j) * ((scale : Rat) / denominator q (K + j)) := by
  have hterm : ∀ j, (scale : Rat) * ((-1) ^ j / ((2 * j + 1) * q ^ (2 * j + 1))) =
      (-1) ^ j * ((scale : Rat) / denominator q j) := by
    intro j
    rw [denominator]
    push_cast
    ring
  rw [Finset.mul_sum, Finset.sum_congr rfl (fun j _ => hterm j), Finset.sum_range_add, ← sub_sub,
    ← Finset.sum_sub_distrib]
  simp only [mul_sub]

end Losses

/-- The series stops after the terms before the first whose denominator is above
    the scale. It is then off by less than a unit for each of these and one more,
    compared with the series at any length that takes in those terms. -/
theorem arctanInverse_near {q : Nat} (hq : 2 ≤ q) (scale : Nat) :
    ∃ K, IsLeast {k | scale < (2 * k + 1) * q ^ (2 * k + 1)} K ∧
      (∃ s, Series.after q scale K (.start q) = some s ∧ s.next q scale = none ∧
        s.sum = arctanInverse q scale) ∧
      ∀ M, K ≤ M → |(arctanInverse q scale : Rat) - scale * ∑ j ∈ Finset.range M,
        (-1 : Rat) ^ j / ((2 * j + 1) * q ^ (2 * j + 1))| < K + 1 := by
  have hpos : 0 < q := by omega
  rcases exists_isLeast hpos scale with ⟨K, hK⟩
  have hrun := Series.after_start hq hK
  refine ⟨K, hK, ⟨_, hrun⟩, fun M hM => ?_⟩
  rcases Nat.exists_eq_add_of_le hM with ⟨m, rfl⟩
  have hsum : (arctanInverse q scale : Rat) =
      ∑ j ∈ Finset.range K, (-1) ^ j * ((scale / denominator q j : Nat) : Rat) := by
    rw [← hrun.2.2, Series.reached]
    push_cast
    rfl
  have htaken := abs_taken_le (denominator q) scale K
  have hleft := abs_left_le (denominator_mono hpos) (denominator_pos hpos) scale K m
  have hfirst : (scale : Rat) / denominator q K < 1 := by
    rw [div_lt_one (Nat.cast_pos.mpr (denominator_pos hpos K))]
    exact Nat.cast_lt.mpr hK.1
  rw [hsum, series_difference]
  refine (abs_sub _ _).trans_lt ?_
  linarith only [htaken, hleft, hfirst]

/-- Twenty terms take a fifth to thirty places. -/
theorem arctanInverse_near_fifth :
    2 ≤ 5 ∧ IsLeast {k : Nat | 10 ^ 30 < (2 * k + 1) * 5 ^ (2 * k + 1)} 20 ∧
      arctanInverse 5 (10 ^ 30) = 197395559849880758370049765195 ∧
      ∀ M, 20 ≤ M → |(197395559849880758370049765195 : Rat) - 10 ^ 30 * ∑ j ∈ Finset.range M,
        (-1 : Rat) ^ j / ((2 * j + 1) * 5 ^ (2 * j + 1))| < 20 + 1 := by
  have hq : 2 ≤ 5 := by decide
  have hleast : IsLeast {k : Nat | 10 ^ 30 < (2 * k + 1) * 5 ^ (2 * k + 1)} 20 := by
    have hbelow : ∀ k < 20, ¬10 ^ 30 < (2 * k + 1) * 5 ^ (2 * k + 1) := by decide +kernel
    refine ⟨by decide +kernel, fun k hk => not_lt.mp (fun hlt => hbelow k hlt hk)⟩
  have hvalue : arctanInverse 5 (10 ^ 30) = 197395559849880758370049765195 := by decide +kernel
  rcases arctanInverse_near hq (10 ^ 30) with ⟨K, hK, -, hnear⟩
  rw [hvalue, hK.unique hleast] at hnear
  exact ⟨hq, hleast, hvalue, fun M hM => by exact_mod_cast hnear M hM⟩

end FixedPoint

end ExactCalc
