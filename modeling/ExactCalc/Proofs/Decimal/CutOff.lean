import ExactCalc.Proofs.Decimal.Scaled
import Mathlib.Data.Nat.Prime.Basic
import Mathlib.Data.Rat.Floor

/-!
# Decimal Text of a Rational Number

A rational number is written as it is if it takes no more places than are
allowed, and cut off towards zero otherwise.

How many places it takes is read off its denominator. A number with `m` places is
a whole number divided by a power of ten, so the denominator divides that power;
and a number whose denominator does is its own truncation. The denominator
divides the power just when nothing is left of it beside twos and fives, and no
more of either than there are tens. Counting the two factors therefore decides
whether the text is exact, without the text being looked at.

All this is arithmetic without bounds. The text itself is made at the scale of the
places, and from the first number that is no count on the digits behind the point are
too few and stand in the wrong place. Only a number with none of them is then still
right.

## Main definitions

* `Decimal.cutOff`: A number cut off towards zero.
* `Decimal.placesWritten`: How many places a text is worked out with.

## Theorems

* `tdiv_den`, `cutOff_eq`: Dividing towards zero is cutting off.
* `scaled_div`: The scaled integer of a number is the number cut off.
* `cutOff_div`, `cutOff_cutOff`: Places too many are cut off afterwards.
* `le_cutOff_iff`, `lt_cutOff_add`: The number cut off is the greatest with so
  many places that is not above the number.
* `divideOut_spec`: Taking a factor out leaves the rest.
* `dvd_pow_ten_iff`: The denominators of numbers that end.
* `cutOff_eq_self_iff`: A number that ends is not changed by cutting it off.
* `denoted_scaled`, `denoted_scaled_iff`: What a text denotes whose places are not a
  count.
* `canonical_ofRat`, `denoted_ofRat_iff`, `ofRat_exact`: The form, the number and the
  exactness of a decimal text.
* `ofRat_cutOff`: The decimal text of a number.
-/

namespace ExactCalc

namespace Decimal

/-- A number cut off towards zero behind the given places. -/
def cutOff (places : Nat) (q : Rat) : Rat :=
  ((if q < 0 then ⌈q * 10 ^ places⌉ else ⌊q * 10 ^ places⌋ : Int) : Rat) / 10 ^ places

/-- How many places the text of a number is worked out with. -/
def placesWritten (q : Rat) (places : Nat) : Nat :=
  match places? q.den with
  | some n => min n places
  | none => places

section Cutting

variable (q : Rat) (places : Nat)

theorem ten_pow_pos : (0 : Rat) < 10 ^ places := by positivity

theorem tdiv_den {n : Nat} (hn : 0 < n) :
    (q.num * n).tdiv q.den = if q < 0 then ⌈q * n⌉ else ⌊q * n⌋ := by
  have hfraction : q * n = ((q.num * n : Int) : Rat) / (q.den : Rat) := by
    rw [Int.cast_mul, Int.cast_natCast, mul_div_right_comm, Rat.num_div_den]
  have hpos : (0 : Int) < n := Int.natCast_pos.mpr hn
  rw [hfraction]
  -- Towards zero is upwards below zero and downwards above it.
  by_cases hneg : q < 0
  · have hnum : q.num * n ≤ 0 := mul_nonpos_of_nonpos_of_nonneg (Rat.num_neg.mpr hneg).le hpos.le
    rw [if_pos hneg, Rat.ceil_intCast_div_natCast,
      ← Int.tdiv_eq_ediv_of_nonneg (neg_nonneg.mpr hnum), Int.neg_tdiv, neg_neg]
  · have hnum : 0 ≤ q.num * n := mul_nonneg (Rat.num_nonneg.mpr (not_lt.mp hneg)) hpos.le
    rw [if_neg hneg, Rat.floor_intCast_div_natCast, Int.tdiv_eq_ediv_of_nonneg hnum]

theorem cutOff_eq :
    cutOff places q = ((q.num * (10 ^ places : Nat)).tdiv q.den : Int) / 10 ^ places := by
  rw [cutOff, tdiv_den q (Nat.pow_pos (by decide)), Nat.cast_pow, Nat.cast_ofNat]

theorem scaled_eq {places : Nat} (h : places < Word.counts) :
    scaled q places = if q < 0 then ⌈q * 10 ^ places⌉ else ⌊q * 10 ^ places⌋ := by
  rw [scaled, tdiv_den q (scale_pos places), scale_of_lt h, Nat.cast_pow, Nat.cast_ofNat]

/-- The scaled integer of a number is the number cut off. -/
theorem scaled_div {places : Nat} (h : places < Word.counts) :
    (scaled q places : Rat) / 10 ^ places = cutOff places q := by
  rw [cutOff, scaled_eq q h]

/-- A number of places has the scaled integer of the count it is cut down to. -/
@[simp] theorem scaled_count : scaled q (Word.count places) = scaled q places := by
  rw [scaled, scaled, scale_count]

/-- Cutting off changes nothing just when the denominator divides the scale. -/
theorem cutOff_eq_self_iff : cutOff places q = q ↔ q.den ∣ 10 ^ places := by
  have hpos := ten_pow_pos places
  constructor
  · -- The number cut off is a fraction over the scale, whatever its numerator.
    intro hself
    rw [cutOff] at hself
    generalize (if q < 0 then ⌈q * 10 ^ places⌉ else ⌊q * 10 ^ places⌋ : Int) = k at hself
    have hdvd := Rat.den_dvd k (10 ^ places : Nat)
    rw [Rat.divInt_eq_div, Int.cast_natCast, Nat.cast_pow, Nat.cast_ofNat, hself] at hdvd
    exact_mod_cast hdvd
  · -- The number times the scale is whole, so there is nothing to cut off.
    rintro ⟨k, hk⟩
    have hden : (q.den : Rat) ≠ 0 := Nat.cast_ne_zero.mpr q.den_ne_zero
    have hwhole : q * 10 ^ places = ((q.num * k : Int) : Rat) := by
      have hcast : (10 : Rat) ^ places = q.den * k := by exact_mod_cast hk
      rw [hcast, ← mul_assoc, Rat.mul_den_eq_num, Int.cast_mul, Int.cast_natCast]
    rw [cutOff, hwhole, Int.ceil_intCast, Int.floor_intCast, ite_self, ← hwhole,
      mul_div_cancel_right₀ _ hpos.ne']

end Cutting

section Guard

variable (places guard : Nat)

/-- Cutting off twice is cutting off once, by the product. -/
theorem tdiv_tdiv (n : Int) (a b : Nat) : (n.tdiv a).tdiv b = n.tdiv (a * b) := by
  have hnat : ∀ m : Nat, ((m : Int).tdiv a).tdiv b = (m : Int).tdiv (a * b) := by
    intro m
    rw [← Int.natCast_mul, ← Int.ofNat_tdiv, ← Int.ofNat_tdiv, ← Int.ofNat_tdiv,
      Nat.div_div_eq_div_mul]
  rcases Int.eq_nat_or_neg n with ⟨m, rfl | rfl⟩
  · exact hnat m
  · rw [Int.neg_tdiv, Int.neg_tdiv, Int.neg_tdiv, hnat]

/-- Places more than are wanted, cut off afterwards, make no difference. -/
theorem tdiv_guard (q : Rat) :
    ((q.num * (10 ^ (places + guard) : Nat)).tdiv q.den).tdiv (10 ^ guard : Nat) =
      (q.num * (10 ^ places : Nat)).tdiv q.den := by
  have hguard : (0 : Int) < (10 ^ guard : Nat) := Int.natCast_pos.mpr (Nat.pow_pos (by decide))
  rw [Nat.pow_add, Int.natCast_mul, ← mul_assoc, tdiv_tdiv, Int.mul_tdiv_mul_of_pos_left _ _ hguard]

/-- A scaled integer without its guard places is the number it stands for, cut
    off in front of them. -/
theorem cutOff_div (n : Int) :
    cutOff places ((n : Rat) / 10 ^ (places + guard)) =
      (n.tdiv (10 ^ guard : Nat) : Int) / 10 ^ places := by
  set q : Rat := (n : Rat) / 10 ^ (places + guard) with hq
  -- The number times all its places is the integer, so there is nothing to cut off.
  have hwhole : (q.num * (10 ^ (places + guard) : Nat)).tdiv q.den = n := by
    rw [tdiv_den q (Nat.pow_pos (by decide)), Nat.cast_pow, Nat.cast_ofNat, hq,
      div_mul_cancel₀ _ (ten_pow_pos _).ne', Int.ceil_intCast, Int.floor_intCast, ite_self]
  rw [cutOff_eq, ← tdiv_guard places guard, hwhole]

@[simp]
theorem cutOff_cutOff (q : Rat) : cutOff places (cutOff (places + guard) q) = cutOff places q := by
  rw [cutOff_eq q (places + guard), cutOff_div, tdiv_guard, ← cutOff_eq]

@[simp] theorem cutOff_neg (q : Rat) : cutOff places (-q) = -cutOff places q := by
  rw [cutOff_eq, cutOff_eq, Rat.num_neg_eq_neg_num, Rat.den_neg_eq_den, Int.neg_mul, Int.neg_tdiv,
    Int.cast_neg, neg_div]

end Guard

section Bounds

variable {q : Rat} (hq : 0 ≤ q) (places : Nat)

include hq

theorem cutOff_of_nonneg : cutOff places q = (⌊q * 10 ^ places⌋ : Int) / 10 ^ places := by
  rw [cutOff, if_neg (not_lt.mpr hq)]

/-- A number with the given places is not above the number cut off just when it
    is not above the number itself. -/
theorem le_cutOff_iff (d : Int) : (d : Rat) / 10 ^ places ≤ cutOff places q ↔
    (d : Rat) / 10 ^ places ≤ q := by
  have hpos := ten_pow_pos places
  rw [cutOff_of_nonneg hq, div_le_div_iff_of_pos_right hpos, Int.cast_le, Int.le_floor,
    div_le_iff₀ hpos]

theorem cutOff_le : cutOff places q ≤ q := by
  have hself := le_cutOff_iff hq places ⌊q * 10 ^ places⌋
  rw [← cutOff_of_nonneg hq] at hself
  exact hself.mp le_rfl

theorem cutOff_nonneg : 0 ≤ cutOff places q := by
  have hzero := le_cutOff_iff hq places 0
  rw [Int.cast_zero, zero_div] at hzero
  exact hzero.mpr hq

/-- More places are never further from the number. -/
theorem cutOff_mono {m n : Nat} (h : m ≤ n) : cutOff m q ≤ cutOff n q := by
  rcases Nat.exists_eq_add_of_le h with ⟨k, rfl⟩
  rw [← cutOff_cutOff m k q]
  exact cutOff_le (cutOff_nonneg hq (m + k)) m

theorem lt_cutOff_add : q < cutOff places q + 1 / 10 ^ places := by
  rw [cutOff_of_nonneg hq, ← add_div, lt_div_iff₀ (ten_pow_pos places)]
  exact Int.lt_floor_add_one _

/-- The next number with the given places is above the number that is cut off. -/
theorem lt_cutOff_add_iff (d : Int) : (d : Rat) / 10 ^ places < cutOff places q + 1 / 10 ^ places ↔
    (d : Rat) / 10 ^ places ≤ q := by
  have hpos := ten_pow_pos places
  -- Both are whole numbers over the scale, so to be below the next is to be no greater.
  rw [← le_cutOff_iff hq, cutOff_of_nonneg hq, ← add_div, div_lt_div_iff_of_pos_right hpos,
    div_le_div_iff_of_pos_right hpos, Int.cast_le, ← Int.lt_add_one_iff]
  exact_mod_cast Iff.rfl

theorem exists_next : ∃ d : Nat, (d : Rat) / 10 ^ places = cutOff places q + 1 / 10 ^ places := by
  have hfloor : 0 ≤ ⌊q * 10 ^ places⌋ :=
    Int.floor_nonneg.mpr (mul_nonneg hq (ten_pow_pos places).le)
  rcases Int.eq_ofNat_of_zero_le hfloor with ⟨n, hn⟩
  refine ⟨n + 1, ?_⟩
  rw [cutOff_of_nonneg hq, hn, Int.cast_natCast, Nat.cast_succ, add_div]

end Bounds

section Denominators

/-- Taking a factor out leaves a rest without it. -/
theorem divideOut_spec {p n : Nat} (hp : 1 < p) (hn : 0 < n) :
    p ^ (divideOut p n).2 * (divideOut p n).1 = n ∧ ¬p ∣ (divideOut p n).1 := by
  fun_induction divideOut p n with
  | case1 n h rest count heq ih =>
      have hdvd := Nat.dvd_of_mod_eq_zero h.2.2
      rcases ih (Nat.div_pos (Nat.le_of_dvd hn hdvd) (by omega)) with ⟨hprod, hnot⟩
      rw [heq] at hprod hnot
      refine ⟨?_, hnot⟩
      rw [pow_succ', mul_assoc, hprod, Nat.mul_div_cancel' hdvd]
  | case2 n h =>
      rw [pow_zero, one_mul]
      exact ⟨rfl, fun hdvd => h ⟨hp, hn, Nat.mod_eq_zero_of_dvd hdvd⟩⟩

/-- The denominators that divide a power of ten have only so many twos and
    fives. -/
theorem dvd_pow_ten_iff {den : Nat} (hden : 0 < den) (m : Nat) :
    den ∣ 10 ^ m ↔ ∃ n, places? den = some n ∧ n ≤ m := by
  rcases htwos : divideOut 2 den with ⟨odd, a⟩
  rcases hfives : divideOut 5 odd with ⟨rest, b⟩
  have htwo := divideOut_spec (p := 2) (by decide) hden
  rw [htwos] at htwo
  rcases htwo with ⟨hden2, hodd⟩
  have hoddPos : 0 < odd := Nat.pos_of_ne_zero (fun h => hodd (h ▸ Nat.dvd_zero 2))
  have hfive := divideOut_spec (p := 5) (by decide) hoddPos
  rw [hfives] at hfive
  rcases hfive with ⟨hodd5, hrest⟩
  have hplaces : places? den = if rest = 1 then some (max a b) else none := by
    rw [places?, htwos]
    simp only
    rw [hfives]
  have hten : 10 ^ m = 2 ^ m * 5 ^ m := Nat.mul_pow 2 5 m
  rw [hplaces, ← hden2, ← hodd5]
  constructor
  · intro hdvd
    -- The rest has no factor in common with ten, so it is nothing at all.
    have hrestTwo : ¬2 ∣ rest := fun h => hodd (hodd5 ▸ Dvd.dvd.mul_left h _)
    have hcoprime : Nat.Coprime rest (10 ^ m) := by
      rw [hten]
      refine Nat.Coprime.mul_right (Nat.Coprime.pow_right m ?_) (Nat.Coprime.pow_right m ?_)
      · exact ((Nat.Prime.coprime_iff_not_dvd Nat.prime_two).mpr hrestTwo).symm
      · exact ((Nat.Prime.coprime_iff_not_dvd Nat.prime_five).mpr hrest).symm
    have hone : rest = 1 :=
      hcoprime.eq_one_of_dvd ((Dvd.dvd.mul_left (Dvd.intro_left _ rfl) _).trans hdvd)
    -- Each of the two factors divides its own part of the power of ten.
    have ha : 2 ^ a ∣ 2 ^ m := by
      have hcoprime25 : Nat.Coprime (2 ^ a) (5 ^ m) := Nat.Coprime.pow a m (by decide)
      exact hcoprime25.dvd_of_dvd_mul_right (hten ▸ (Dvd.intro _ rfl).trans hdvd)
    have hb : 5 ^ b ∣ 5 ^ m := by
      have hcoprime52 : Nat.Coprime (5 ^ b) (2 ^ m) := Nat.Coprime.pow b m (by decide)
      refine hcoprime52.dvd_of_dvd_mul_left (hten ▸ Dvd.dvd.trans ?_ hdvd)
      exact Dvd.dvd.mul_left (Dvd.intro _ rfl) _
    rw [if_pos hone]
    exact ⟨max a b, rfl, max_le ((Nat.pow_dvd_pow_iff_le_right (by decide)).mp ha)
      ((Nat.pow_dvd_pow_iff_le_right (by decide)).mp hb)⟩
  · rintro ⟨n, hn, hle⟩
    by_cases hone : rest = 1
    · rw [if_pos hone, Option.some.injEq] at hn
      rw [hone, mul_one, hten]
      exact mul_dvd_mul (pow_dvd_pow 2 (by omega)) (pow_dvd_pow 5 (by omega))
    · rw [if_neg hone] at hn
      cases hn

end Denominators

theorem Canonical.mono {m n : Nat} {cs : List Char} (h : Canonical m cs) (hle : m ≤ n) :
    Canonical n cs := by
  rcases h with ⟨p, hp, htext⟩
  exact ⟨p, { hp with length_le := hp.length_le.trans hle }, htext⟩

section Writing

variable (q : Rat) (places : Nat)

/-- With more places a number is cut off further from its whole part. -/
theorem abs_cutOff_sub_le {m n : Nat} (h : m ≤ n) :
    |cutOff m q - cutOff 0 q| ≤ |cutOff n q - cutOff 0 q| := by
  have hcases : ∀ r : Rat, 0 ≤ r → |cutOff m r - cutOff 0 r| ≤ |cutOff n r - cutOff 0 r| :=
    fun r hr => abs_le_abs_of_nonneg (sub_nonneg.mpr (cutOff_mono hr (Nat.zero_le m)))
      (sub_le_sub_right (cutOff_mono hr h) _)
  rcases le_total 0 q with hq | hq
  · exact hcases q hq
  · have hneg := hcases (-q) (neg_nonneg.mpr hq)
    rw [cutOff_neg, cutOff_neg, cutOff_neg, ← neg_sub', ← neg_sub', abs_neg, abs_neg] at hneg
    exact hneg

/-- What the text of a scaled number denotes: the digits behind the point are those
    of the scale, and stand at the end of the places. -/
theorem denoted_scaled : denoted (trim (ofScaled (scaled q places) places)) =
    cutOff 0 q + (cutOff (Word.count places) q - cutOff 0 q) *
      (10 ^ Word.count places / 10 ^ places) := by
  have hwhole := tdiv_guard 0 (Word.count places) q
  have hscaled := cutOff_eq q (Word.count places)
  have hzero := cutOff_eq q 0
  rw [Nat.zero_add] at hwhole
  rw [← hwhole, pow_zero, div_one] at hzero
  rw [eq_div_iff (ten_pow_pos _).ne'] at hscaled
  rw [denoted_trim, Int.tmod_def, scaled, show scale places = 10 ^ Word.count places from rfl,
    Int.cast_sub, Int.cast_mul, ← hscaled, ← hzero, Int.cast_natCast, Nat.cast_pow, Nat.cast_ofNat]
  ring

/-- The text of a scaled number denotes the number cut off just when the number of
    places is a count or there is nothing behind the point. -/
theorem denoted_scaled_iff :
    denoted (trim (ofScaled (scaled q places) places)) = cutOff places q ↔
      places < Word.counts ∨ cutOff places q = cutOff 0 q := by
  rcases Nat.lt_or_ge places Word.counts with hlt | hge
  · rw [denoted_trim_of_lt _ hlt, scaled_div q hlt]
    exact iff_of_true rfl (.inl hlt)
  have hcount : Word.count places < places :=
    (Nat.mod_lt _ (by decide : 0 < Word.counts)).trans_le hge
  have hpos : (0 : Rat) < 10 ^ Word.count places / 10 ^ places :=
    div_pos (ten_pow_pos _) (ten_pow_pos _)
  have hshift : (10 : Rat) ^ Word.count places / 10 ^ places < 1 :=
    (div_lt_one (ten_pow_pos places)).mpr (pow_lt_pow_right₀ (by norm_num) hcount)
  have hfewer := abs_cutOff_sub_le q hcount.le
  rw [denoted_scaled, or_iff_right (not_lt.mpr hge)]
  constructor
  · intro heq
    -- The digits that are shifted would be no fewer than those of the number itself.
    by_contra hne
    have hbehind := abs_pos.mpr (sub_ne_zero.mpr hne)
    refine lt_irrefl |cutOff places q - cutOff 0 q| ?_
    calc |cutOff places q - cutOff 0 q|
        = |cutOff (Word.count places) q - cutOff 0 q| *
            (10 ^ Word.count places / 10 ^ places) := by
          rw [← heq, add_sub_cancel_left, abs_mul, abs_of_pos hpos]
      _ ≤ |cutOff places q - cutOff 0 q| * (10 ^ Word.count places / 10 ^ places) :=
          mul_le_mul_of_nonneg_right hfewer hpos.le
      _ < |cutOff places q - cutOff 0 q| := mul_lt_of_lt_one_right hbehind hshift
  · intro hwhole
    rw [hwhole, sub_self, abs_zero, abs_nonpos_iff] at hfewer
    rw [hfewer, zero_mul, add_zero, hwhole]

theorem placesWritten_le : placesWritten q places ≤ places := by
  rw [placesWritten]
  rcases places? q.den with _ | n
  · exact le_rfl
  · exact min_le_right n places

/-- The places that are not written are not needed. -/
@[simp] theorem cutOff_placesWritten : cutOff (placesWritten q places) q = cutOff places q := by
  rw [placesWritten]
  rcases hplaces : places? q.den with _ | n
  · rfl
  have hexact : ∀ m, n ≤ m → cutOff m q = q := fun m hm =>
    (cutOff_eq_self_iff q m).mpr ((dvd_pow_ten_iff q.den_pos m).mpr ⟨n, hplaces, hm⟩)
  show cutOff (min n places) q = cutOff places q
  rcases le_total n places with hle | hle
  · rw [min_eq_left hle, hexact n le_rfl, hexact places hle]
  · rw [min_eq_right hle]

theorem ofRat_text : (ofRat q places).1 =
    trim (ofScaled (scaled q (placesWritten q places)) (placesWritten q places)) := by
  rw [ofRat, placesWritten]
  rcases places? q.den with _ | n
  · rfl
  simp only
  rcases Nat.lt_or_ge places n with hlt | hle
  · rw [if_neg (not_le.mpr hlt), min_eq_right hlt.le]
  · rw [if_pos hle, min_eq_left hle]

theorem canonical_ofRat : Canonical places (ofRat q places).1 := by
  rw [ofRat_text]
  exact (canonical_trim _ _).mono (placesWritten_le q places)

theorem ofRat_exact : (ofRat q places).2 = true ↔ cutOff places q = q := by
  rw [cutOff_eq_self_iff, dvd_pow_ten_iff q.den_pos, ofRat]
  rcases places? q.den with _ | n
  · exact ⟨nofun, fun ⟨_, hn, _⟩ => nomatch hn⟩
  simp only [Option.some.injEq, exists_eq_left']
  by_cases hle : n ≤ places
  · rw [if_pos hle]
    exact iff_of_true rfl hle
  · rw [if_neg hle]
    exact iff_of_false Bool.false_ne_true hle

theorem denoted_ofRat_iff : denoted (ofRat q places).1 = cutOff places q ↔
    placesWritten q places < Word.counts ∨ cutOff places q = cutOff 0 q := by
  rw [ofRat_text, ← cutOff_placesWritten, denoted_scaled_iff]

end Writing

/-- The decimal text of a number is written in the one way there is, and exact just
    when nothing was cut off. It denotes the number cut off towards zero as long as the
    places it is worked out with are a count; beyond, only a number that has nothing
    behind the point up to these places. -/
theorem ofRat_cutOff (q : Rat) (places : Nat) :
    Canonical places (ofRat q places).1 ∧
      (denoted (ofRat q places).1 = cutOff places q ↔
        placesWritten q places < Word.counts ∨ cutOff places q = cutOff 0 q) ∧
      ((ofRat q places).2 = true ↔ cutOff places q = q) :=
  ⟨canonical_ofRat q places, denoted_ofRat_iff q places, ofRat_exact q places⟩

/-- With the first number of places that is no count, the text of a third does not
    denote the third cut off. -/
theorem ofRat_cutOff_third :
    placesWritten (1 / 3) Word.counts = Word.counts ∧
      denoted (ofRat (1 / 3) Word.counts).1 ≠ cutOff Word.counts (1 / 3) := by
  have hthird : (0 : Rat) ≤ 1 / 3 := by norm_num
  have hplaces : places? (1 / 3 : Rat).den = none := by decide +kernel
  have hwritten : placesWritten (1 / 3) Word.counts = Word.counts := by rw [placesWritten, hplaces]
  refine ⟨hwritten, ?_⟩
  rw [ne_eq, (ofRat_cutOff (1 / 3) Word.counts).2.1, hwritten, or_iff_right (lt_irrefl _)]
  -- There is a three behind the point, and nothing in front of it.
  have hone : cutOff 0 (1 / 3) < cutOff 1 (1 / 3) := by decide +kernel
  exact (hone.trans_le (cutOff_mono hthird (by decide))).ne'

example : ofRat (-1 / 16) 3 = ("-0.062".toList, false) := by cbv

end Decimal

end ExactCalc
