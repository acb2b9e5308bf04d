import ExactCalc.FixedPoint
import ExactCalc.Proofs.Decimal.CutOff
import ExactCalc.Proofs.SquareRoot
import Mathlib.Order.Bounds.Basic
import Mathlib.Order.Bounds.Defs

/-!
# Roots at a Scale

The root of a rational number at a scale is the greatest integer that is not
above it, as long as the places of the scale are a count.

Two things are cut off on the way to it: the radicand, which is scaled by the
square of the scale and divided by its denominator, and then the root of what
that leaves. Cutting off twice is no worse than cutting off once, because a
square is a whole number: it is not above the quotient just when it is not above
the quotient's whole part.

The scale is squared, so it takes twice the places. From half the counts on it is too
small by far, and so is the root unless it is zero anyway. From half the sizes on there
is none.

## Main definitions

* `FixedPoint.cutRoot`: A root cut off.

## Theorems

* `sqrtRat_eq_ok`, `sqrtRat_of_lt`, `sqrtRat_of_le`: With which places there is a scaled root.
* `sq_le_iff_le_rootAt`: Which integers are not above the root.
* `isGreatest_rootAt`: The root at any scale.
* `isGreatest_larger_iff`: A root at too small a scale.
* `isGreatest_rootAt_iff`, `isGreatest_sqrtRat_iff`: The scaled root.
* `le_cutRoot_iff`, `cutRoot_sq_le`, `lt_cutRoot_add_sq`: A root between the
  neighbouring numbers with so many places.
* `roots_are_floors`: Whole, scaled and exact roots together.
-/

namespace ExactCalc

namespace FixedPoint

section Sizes

variable {places : Nat} {q : Rat}

/-- The numbers of places that there is a scaled root with. -/
@[simp] theorem sqrtRat_eq_ok {s : Int} : sqrtRat places q = .ok s ↔
    2 * places < Word.sizes ∧ rootAt (Decimal.scale (2 * places)) q = s := by
  simp only [sqrtRat, map_eq_ok, Word.size_eq_ok, and_assoc, exists_and_left, exists_eq_left']

theorem sqrtRat_of_lt (h : 2 * places < Word.sizes) (q : Rat) :
    sqrtRat places q = .ok (rootAt (Decimal.scale (2 * places)) q) :=
  sqrtRat_eq_ok.mpr ⟨h, rfl⟩

theorem sqrtRat_of_le (h : Word.sizes ≤ 2 * places) (q : Rat) :
    sqrtRat places q = .error .size := by
  rw [sqrtRat, Word.size_of_le h]
  rfl

/-- A number of places has the scaled root of the count it is cut down to. -/
theorem sqrtRat_count (h : 2 * places < Word.sizes) (q : Rat) :
    sqrtRat (Word.count places) q = sqrtRat places q := by
  have hcount := (Nat.mul_le_mul_left 2 (Word.count_le places)).trans_lt h
  rw [sqrtRat_of_lt h, sqrtRat_of_lt hcount, ← Decimal.scale_count, Word.count_mul_count,
    Decimal.scale_count]

end Sizes

/-- An integer is not above the root of a number at any scale just when its square is
    not above the number at that scale. -/
theorem sq_le_iff_le_rootAt {q : Rat} (hq : 0 ≤ q) (n s : Nat) :
    (s : Int) ^ 2 * q.den ≤ q.num * n ↔ s ≤ rootAt n q := by
  have habs : (q.num.natAbs : Int) = q.num := Int.natAbs_of_nonneg (Rat.num_nonneg.mpr hq)
  have hcast : (s : Int) ^ 2 * q.den ≤ q.num * n ↔ s * s * q.den ≤ q.num.natAbs * n := by
    rw [← habs, ← Nat.pow_two]
    norm_cast
  rw [hcast, rootAt, SquareRoot.floor_eq_sqrt, Nat.le_sqrt, Nat.le_div_iff_mul_le q.den_pos]

/-- The root at a scale is the greatest integer that is not above it. -/
theorem isGreatest_rootAt {q : Rat} (hq : 0 ≤ q) (n : Nat) :
    IsGreatest {s : Int | s ^ 2 * q.den ≤ q.num * n} (rootAt n q : Nat) := by
  constructor
  · exact (sq_le_iff_le_rootAt hq n _).mpr le_rfl
  · intro s hs
    by_cases hneg : s < 0
    · omega
    · rcases Int.eq_ofNat_of_zero_le (not_lt.mp hneg) with ⟨m, rfl⟩
      exact Int.ofNat_le.mpr ((sq_le_iff_le_rootAt hq n m).mp hs)

/-- The root of a number is not that of a number four times as large, unless there is
    no root but zero. -/
theorem isGreatest_larger_iff {d m n s : Int} (hd : 0 < d) (hs0 : 0 ≤ s) (hm : 0 ≤ m)
    (hmn : 4 * m ≤ n) (hs : s ^ 2 * d ≤ m) :
    IsGreatest {s : Int | s ^ 2 * d ≤ n} s ↔ n < d := by
  constructor
  · intro hgreatest
    by_contra hle
    have hnext : (s + 1) ^ 2 * d ≤ n := by
      rcases hs0.eq_or_lt with rfl | hpos
      · linarith only [hle]
      -- The next integer is at most twice the root, and its square four times as large.
      have hdouble : (s + 1) ^ 2 * d ≤ (2 * s) ^ 2 * d :=
        mul_le_mul_of_nonneg_right (pow_le_pow_left₀ (by omega) (by omega) 2) hd.le
      linarith only [hdouble, hs, hmn]
    have hup := hgreatest.2 hnext
    omega
  · intro hsmall
    have hzero : ∀ t : Int, t ^ 2 * d ≤ n → t = 0 := by
      intro t ht
      have hlt : t ^ 2 < 1 := lt_of_mul_lt_mul_right (by linarith only [ht, hsmall]) hd.le
      exact (pow_eq_zero_iff two_ne_zero).mp
        (le_antisymm (Int.lt_add_one_iff.mp hlt) (sq_nonneg t))
    have hself : s ^ 2 * d ≤ n := by linarith only [hs, hm, hmn]
    exact ⟨hself, fun t ht => (hzero t ht).le.trans hs0⟩

/-- The root at the scale is the greatest integer not above the scaled root just when
    the scale has all the places it takes, or there is nothing but zero not above it. -/
theorem isGreatest_rootAt_iff {q : Rat} (hq : 0 ≤ q) (places : Nat) :
    IsGreatest {s : Int | s ^ 2 * q.den ≤ q.num * 10 ^ (2 * places)}
        (rootAt (Decimal.scale (2 * places)) q : Nat) ↔
      2 * places < Word.counts ∨ q.num * 10 ^ (2 * places) < q.den := by
  have hgreatest := isGreatest_rootAt hq (Decimal.scale (2 * places))
  rcases Nat.lt_or_ge (2 * places) Word.counts with hlt | hge
  · rw [Decimal.scale_of_lt hlt, Nat.cast_pow, Nat.cast_ofNat] at hgreatest
    rw [Decimal.scale_of_lt hlt]
    exact iff_of_true hgreatest (.inl hlt)
  rw [or_iff_right (not_lt.mpr hge)]
  have hcount : Word.count (2 * places) < 2 * places :=
    (Nat.mod_lt _ (by decide : 0 < Word.counts)).trans_le hge
  have hscale : 10 * Decimal.scale (2 * places) ≤ 10 ^ (2 * places) :=
    (Nat.pow_succ' ..).symm.le.trans (Nat.pow_le_pow_right (by decide) hcount)
  have hnum : 0 ≤ q.num := Rat.num_nonneg.mpr hq
  have hlarger : 4 * (q.num * Decimal.scale (2 * places)) ≤ q.num * 10 ^ (2 * places) := by
    have hcast : (10 * Decimal.scale (2 * places) : Int) ≤ 10 ^ (2 * places) := by
      exact_mod_cast hscale
    have hproduct := mul_le_mul_of_nonneg_left hcast hnum
    have hnonneg : 0 ≤ q.num * Decimal.scale (2 * places) := mul_nonneg hnum (Int.natCast_nonneg _)
    linarith only [hproduct, hnonneg]
  exact isGreatest_larger_iff (Int.natCast_pos.mpr q.den_pos) (Int.natCast_nonneg _)
    (mul_nonneg hnum (Int.natCast_nonneg _)) hlarger hgreatest.1

/-- The scaled root of a number is that root, as long as its places are a size. -/
theorem isGreatest_sqrtRat_iff {q : Rat} (hq : 0 ≤ q) (places : Nat) :
    (∃ s, sqrtRat places q = .ok s ∧
        IsGreatest {s : Int | s ^ 2 * q.den ≤ q.num * 10 ^ (2 * places)} s) ↔
      2 * places < Word.counts ∨
        2 * places < Word.sizes ∧ q.num * 10 ^ (2 * places) < q.den := by
  simp only [sqrtRat_eq_ok, and_assoc, exists_and_left, exists_eq_left',
    isGreatest_rootAt_iff hq places, and_or_left]
  have hsize : 2 * places < Word.counts → 2 * places < Word.sizes :=
    fun h => h.trans Word.counts_lt_sizes
  rw [and_iff_right_of_imp hsize]

/-- The root of a number, cut off behind the given places. -/
def cutRoot (places : Nat) (q : Rat) : Rat := rootAt (10 ^ (2 * places)) q / 10 ^ places

/-- The scaled root of a number is the root cut off. -/
theorem rootAt_div {places : Nat} (h : 2 * places < Word.counts) (q : Rat) :
    (rootAt (Decimal.scale (2 * places)) q : Rat) / 10 ^ places = cutRoot places q := by
  rw [cutRoot, Decimal.scale_of_lt h]

theorem cutRoot_nonneg (places : Nat) (q : Rat) : 0 ≤ cutRoot places q :=
  div_nonneg (Nat.cast_nonneg _) (Decimal.ten_pow_pos places).le

section CutRoot

variable {q : Rat} (hq : 0 ≤ q) (places : Nat)

include hq

/-- A number with the given places is not above the root just when its square is
    not above the radicand. -/
theorem le_cutRoot_iff (s : Nat) :
    (s : Rat) / 10 ^ places ≤ cutRoot places q ↔ ((s : Rat) / 10 ^ places) ^ 2 ≤ q := by
  have hpos := Decimal.ten_pow_pos places
  have hden : (0 : Rat) < q.den := Nat.cast_pos.mpr q.den_pos
  -- Both sides times the square of the scale and the denominator are whole.
  have hsquare : ((s : Rat) / 10 ^ places) ^ 2 ≤ q ↔
      (s : Int) ^ 2 * q.den ≤ q.num * 10 ^ (2 * places) := by
    rw [div_pow, ← pow_mul, mul_comm places 2, div_le_iff₀ (Decimal.ten_pow_pos _)]
    nth_rewrite 1 [← Rat.num_div_den q]
    rw [div_mul_eq_mul_div, le_div_iff₀ hden]
    exact_mod_cast Iff.rfl
  have hfloor := sq_le_iff_le_rootAt hq (10 ^ (2 * places)) s
  rw [Nat.cast_pow, Nat.cast_ofNat] at hfloor
  rw [hsquare, hfloor, cutRoot, div_le_div_iff_of_pos_right hpos, Nat.cast_le]

theorem cutRoot_sq_le : cutRoot places q ^ 2 ≤ q := (le_cutRoot_iff hq places _).mp le_rfl

theorem lt_cutRoot_add_sq : q < (cutRoot places q + 1 / 10 ^ places) ^ 2 := by
  -- The next number with so many places is above the root.
  have hnext := le_cutRoot_iff hq places (rootAt (10 ^ (2 * places)) q + 1)
  have hpos := Decimal.ten_pow_pos places
  rw [Nat.cast_succ, add_div, ← cutRoot] at hnext
  refine lt_of_not_ge (fun hle => absurd (hnext.mpr hle) (not_le.mpr ?_))
  exact lt_add_of_pos_right _ (one_div_pos.mpr hpos)

end CutRoot

@[simp] theorem cutRoot_one (places : Nat) : cutRoot places 1 = 1 := by
  have hscale : ((10 ^ places : Nat) : Rat) / 10 ^ places = 1 := by
    rw [Nat.cast_pow, Nat.cast_ofNat, div_self (Decimal.ten_pow_pos places).ne']
  have hunit := le_cutRoot_iff zero_le_one places (10 ^ places)
  rw [hscale, one_pow] at hunit
  have hupper := cutRoot_sq_le zero_le_one places
  exact le_antisymm ((sq_le_one_iff₀ (cutRoot_nonneg places 1)).mp hupper) (hunit.mpr le_rfl)

/-- The whole part of a root is cut off between two neighbouring squares, and a root
    is found exactly just when it is rational. The root of a number at a scale is the
    greatest integer not above it just when the places of the scale are a count, or when
    that integer is zero and there is a root at all. -/
theorem roots_are_floors (n : Nat) {q : Rat} (hq : 0 ≤ q) (places : Nat) :
    (SquareRoot.floor n ^ 2 ≤ n ∧ n < (SquareRoot.floor n + 1) ^ 2) ∧
      ((∃ s, sqrtRat places q = .ok s ∧
          IsGreatest {s : Int | s ^ 2 * q.den ≤ q.num * 10 ^ (2 * places)} s) ↔
        2 * places < Word.counts ∨
          2 * places < Word.sizes ∧ q.num * 10 ^ (2 * places) < q.den) ∧
      (∀ s, SquareRoot.ofSquare? q = some s ↔ 0 ≤ s ∧ s ^ 2 = q) ∧
      (SquareRoot.ofSquare? q = none ↔ ¬IsSquare q) := by
  refine ⟨?_, isGreatest_sqrtRat_iff hq places, fun s => SquareRoot.ofSquare?_eq_some,
    SquareRoot.ofSquare?_eq_none⟩
  rw [SquareRoot.floor_eq_sqrt]
  exact ⟨Nat.sqrt_le' n, Nat.lt_succ_sqrt' n⟩

theorem roots_are_floors_ninths :
    (0 : Rat) ≤ 8 / 9 ∧ SquareRoot.floor 99 = 9 ∧ sqrtRat 3 (8 / 9) = .ok 942 ∧
      IsGreatest {s : Int | s ^ 2 * 9 ≤ 8 * 10 ^ (2 * 3)} 942 ∧ ¬IsSquare (8 / 9 : Rat) ∧
      sqrtRat (2 ^ 31) 2 = .ok 1 ∧
      ¬IsGreatest {s : Int | s ^ 2 * 1 ≤ 2 * 10 ^ (2 * 2 ^ 31)} 1 := by
  have hq : (0 : Rat) ≤ 8 / 9 := by norm_num
  have hnum : (8 / 9 : Rat).num = 8 := by decide +kernel
  have hden : (8 / 9 : Rat).den = 9 := by decide +kernel
  have hscaled : sqrtRat 3 (8 / 9) = .ok 942 := by decide +kernel
  rcases roots_are_floors 99 hq 3 with ⟨⟨hle, hlt⟩, hroot, -, hnone⟩
  rcases hroot.mpr (.inl (by decide)) with ⟨s, hs, hgreatest⟩
  rw [hscaled, Except.ok.injEq] at hs
  rw [← hs, hnum, hden, Nat.cast_ofNat] at hgreatest
  -- The scale takes twice the places, which are no count from half the counts on.
  have hbeyond : sqrtRat (2 ^ 31) 2 = .ok 1 := by decide +kernel
  have hnot : ¬IsGreatest {s : Int | s ^ 2 * 1 ≤ 2 * 10 ^ (2 * 2 ^ 31)} 1 := by
    intro hone
    rcases roots_are_floors 99 (q := 2) zero_le_two (2 ^ 31) with ⟨-, hroot, -⟩
    rw [Rat.num_ofNat, Rat.den_ofNat, Nat.cast_one] at hroot
    rcases hroot.mp ⟨1, hbeyond, hone⟩ with hfew | ⟨-, hsmall⟩
    · exact absurd hfew (by decide)
    · have hscale : (1 : Int) ≤ 10 ^ (2 * 2 ^ 31) := one_le_pow₀ (by decide)
      exact absurd hsmall (not_lt.mpr (hscale.trans
        (le_mul_of_one_le_left (zero_le_one.trans hscale) one_le_two)))
  refine ⟨hq, ?_, hscaled, hgreatest, hnone.mp (by decide +kernel), hbeyond, hnot⟩
  have hlow : SquareRoot.floor 99 < 10 := lt_of_pow_lt_pow_left₀ 2 (by decide) (by omega)
  have hhigh : 9 < SquareRoot.floor 99 + 1 := lt_of_pow_lt_pow_left₀ 2 (by decide) (by omega)
  omega

end FixedPoint

end ExactCalc
