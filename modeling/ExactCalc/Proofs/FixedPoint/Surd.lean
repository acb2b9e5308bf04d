import ExactCalc.Proofs.Evaluation
import ExactCalc.Proofs.FixedPoint.Root
import ExactCalc.Proofs.Simplify.Arithmetic
import ExactCalc.Proofs.Simplify.Surd
import ExactCalc.Settings

/-!
# Decimal Text of a Surd

The text of a rational number times a root is never above the number, and how
far it can be below depends on the size of the two factors.

The coefficient and the root are each cut off behind the places asked for and
the guard places, and then multiplied. Cutting a factor off loses less than one
unit of the last guard place, but the product loses that much times the other
factor. The loss shows in the text just when a number with the places asked for
lies between the product and the surd, and the guard places keep it out of the
text only for as long as the factors are small beside them.

Where one of the factors is missing there is nothing to multiply, and cutting off
twice is cutting off once.

The scale of the root has to take twice the places, guard places included. The
settings allow for no more places than that by far.

## Main definitions

* `Surd.cutProduct`: The product of the factors cut off.
* `Surd.LosesNone`: The guard places are enough.

## Theorems

* `value_tree`: The scaled value of a surd.
* `cutProduct_sq_le`, `coefficient_mul_le`, `square_le_cutProduct_add_sq`: The
  product is not above the surd, and not far below.
* `losesNone_of_alone`: Nothing is lost where a factor is missing.
* `lt_add_sq_iff`: When the text is the number cut off.
* `run_render_surd`: The text of a surd.
* `numeric_surd`: The text of a number times a root.
-/

namespace ExactCalc

namespace Surd

open FixedPoint (cutRoot guardPlaces)

/-- The product of the coefficient and the root, each cut off behind the given
    places. -/
def cutProduct (s : Surd) (places : Nat) : Rat :=
  Decimal.cutOff places s.coefficient * cutRoot places s.radicand

/-- No number with the given places is above the product with guard places and not
    above the surd. -/
def LosesNone (s : Surd) (places : Nat) : Prop :=
  ∀ d : Nat, ((d : Rat) / 10 ^ places) ^ 2 ≤ s.square →
    (d : Rat) / 10 ^ places ≤ s.cutProduct (places + guardPlaces)

section Reading

variable (s : Surd) (places : Nat)

/-- The scaled value of a surd that is no number is the product of the scaled
    factors. -/
theorem value_tree (h : 2 * places < Word.sizes) (h0 : s.coefficient ≠ 0)
    (h1 : s.radicand ≠ 1) :
    FixedPoint.value places false s.tree =
      .ok (FixedPoint.mul places (Decimal.scaled s.coefficient places)
        (FixedPoint.rootAt (Decimal.scale (2 * places)) s.radicand)) := by
  have hroot : ∀ read, FixedPoint.valueWith places read (.sqrt (.rat s.radicand)) =
      .ok (FixedPoint.rootAt (Decimal.scale (2 * places)) s.radicand) := by
    intro read
    rw [FixedPoint.valueWith_root places read (Nat.cast_nonneg s.radicand),
      FixedPoint.sqrtRat_of_lt h]
    rfl
  rw [s.tree_of_root h0 h1]
  by_cases hone : s.coefficient = 1
  · -- The root alone is the root times the scaled unit, without the scale.
    have hscale : (Decimal.scale places : Int) ≠ 0 :=
      Int.natCast_ne_zero.mpr (Decimal.scale_pos places).ne'
    have hunit : Decimal.scaled 1 places = Decimal.scale places := by
      rw [Decimal.scaled, Rat.num_one, Rat.den_one, one_mul, Nat.cast_one, Int.tdiv_one]
    rw [if_pos hone, hone, hunit, FixedPoint.mul, Int.mul_tdiv_cancel_left _ hscale,
      FixedPoint.value_of_flat _ _ rfl, hroot]
  · rw [if_neg hone, FixedPoint.value_of_flat _ _ rfl, FixedPoint.valueWith, hroot,
      FixedPoint.valueWith_rat]
    rfl

/-- The scaled value without its guard places is the product, cut off in front of
    them. -/
theorem cutOff_cutProduct (h : 2 * (places + guardPlaces) < Word.counts) :
    Decimal.cutOff places (s.cutProduct (places + guardPlaces)) =
      ((FixedPoint.mul (places + guardPlaces)
          (Decimal.scaled s.coefficient (places + guardPlaces))
          (FixedPoint.rootAt (Decimal.scale (2 * (places + guardPlaces))) s.radicand)).tdiv
        (Decimal.scale guardPlaces) : Int) / 10 ^ places := by
  have hplaces : places + guardPlaces < Word.counts := by omega
  -- The scale of the product is cut off first and the guard places then.
  rw [Decimal.scale_of_lt (by decide : guardPlaces < Word.counts),
    ← Decimal.cutOff_div places guardPlaces, FixedPoint.mul, Decimal.scale_of_lt hplaces,
    ← Decimal.cutOff_div (places + guardPlaces) (places + guardPlaces), Decimal.cutOff_cutOff,
    cutProduct, ← FixedPoint.rootAt_div h, ← Decimal.scaled_div s.coefficient hplaces,
    div_mul_div_comm, ← pow_add, Int.cast_mul, Int.cast_natCast]

end Reading

section Bounds

variable {s : Surd} (hc : 0 ≤ s.coefficient) (places : Nat)

include hc

theorem cutProduct_nonneg : 0 ≤ s.cutProduct places :=
  mul_nonneg (Decimal.cutOff_nonneg hc places) (FixedPoint.cutRoot_nonneg places _)

theorem cutProduct_sq_le : s.cutProduct places ^ 2 ≤ s.square := by
  have hfactor : Decimal.cutOff places s.coefficient ^ 2 ≤ s.coefficient ^ 2 :=
    pow_le_pow_left₀ (Decimal.cutOff_nonneg hc places) (Decimal.cutOff_le hc places) 2
  have hroot := FixedPoint.cutRoot_sq_le (Nat.cast_nonneg s.radicand) places
  rw [cutProduct, mul_pow, square]
  exact mul_le_mul hfactor hroot (sq_nonneg _) (sq_nonneg _)

/-- The loss of either factor goes into the product times the other factor. -/
theorem coefficient_mul_le {u : Rat} (hu : cutRoot places s.radicand ≤ u) :
    s.coefficient * (cutRoot places s.radicand + 1 / 10 ^ places) ≤
      s.cutProduct places + (s.coefficient + u) / 10 ^ places := by
  have hunit : (0 : Rat) ≤ 1 / 10 ^ places := (one_div_pos.mpr (Decimal.ten_pow_pos places)).le
  have hcut := (Decimal.lt_cutOff_add hc places).le
  have hfirst := mul_le_mul_of_nonneg_right hcut (FixedPoint.cutRoot_nonneg places s.radicand)
  have hsecond := mul_le_mul_of_nonneg_right hu hunit
  calc s.coefficient * (cutRoot places s.radicand + 1 / 10 ^ places)
      = s.coefficient * cutRoot places s.radicand + s.coefficient * (1 / 10 ^ places) :=
        mul_add _ _ _
    _ ≤ (Decimal.cutOff places s.coefficient + 1 / 10 ^ places) * cutRoot places s.radicand +
        s.coefficient * (1 / 10 ^ places) := by linarith only [hfirst]
    _ = s.cutProduct places + cutRoot places s.radicand * (1 / 10 ^ places) +
        s.coefficient * (1 / 10 ^ places) := by rw [cutProduct]; ring
    _ ≤ s.cutProduct places + u * (1 / 10 ^ places) + s.coefficient * (1 / 10 ^ places) := by
        linarith only [hsecond]
    _ = s.cutProduct places + (s.coefficient + u) / 10 ^ places := by ring

/-- The product loses no more than a unit of the last place for each unit that the
    factors are large. -/
theorem square_le_cutProduct_add_sq {u : Rat} (hu : 0 ≤ u) (hn : (s.radicand : Rat) ≤ u ^ 2) :
    s.square ≤ (s.cutProduct places + (s.coefficient + u) / 10 ^ places) ^ 2 := by
  have hunit : (0 : Rat) ≤ 1 / 10 ^ places := (one_div_pos.mpr (Decimal.ten_pow_pos places)).le
  have hradicand : (0 : Rat) ≤ s.radicand := Nat.cast_nonneg _
  have hnonneg := FixedPoint.cutRoot_nonneg places s.radicand
  have hupper : cutRoot places s.radicand ≤ u :=
    le_of_sq_le_sq ((FixedPoint.cutRoot_sq_le hradicand places).trans hn) hu
  -- The root is less than a unit above the root cut off, which the square can tell.
  have hroot := (FixedPoint.lt_cutRoot_add_sq hradicand places).le
  calc s.square = s.coefficient ^ 2 * s.radicand := rfl
    _ ≤ s.coefficient ^ 2 * (cutRoot places s.radicand + 1 / 10 ^ places) ^ 2 :=
        mul_le_mul_of_nonneg_left hroot (sq_nonneg _)
    _ = (s.coefficient * (cutRoot places s.radicand + 1 / 10 ^ places)) ^ 2 := (mul_pow _ _ 2).symm
    _ ≤ (s.cutProduct places + (s.coefficient + u) / 10 ^ places) ^ 2 :=
        pow_le_pow_left₀ (mul_nonneg hc (add_nonneg hnonneg hunit))
          (coefficient_mul_le hc places hupper) 2

/-- The text is the surd cut off just when the guard places lose nothing. -/
theorem lt_add_sq_iff :
    s.square < (Decimal.cutOff places (s.cutProduct (places + guardPlaces)) + 1 / 10 ^ places) ^ 2 ↔
      s.LosesNone places := by
  have hproduct := cutProduct_nonneg hc (places + guardPlaces)
  constructor
  · intro hlt d hd
    -- A number not above the surd is below the next one, and there is none in between.
    have hnext := add_nonneg (Decimal.cutOff_nonneg hproduct places)
      (one_div_pos.mpr (Decimal.ten_pow_pos places)).le
    have hbelow := lt_of_pow_lt_pow_left₀ 2 hnext (hd.trans_lt hlt)
    have hiff := Decimal.lt_cutOff_add_iff hproduct places d
    rw [Int.cast_natCast] at hiff
    exact hiff.mp hbelow
  · intro hnone
    rcases Decimal.exists_next hproduct places with ⟨d, hd⟩
    by_contra hle
    -- The next number would not be above the surd, and so not above the product.
    have hbelow := hnone d (hd ▸ not_lt.mp hle)
    exact absurd (hd ▸ hbelow) (not_le.mpr (Decimal.lt_cutOff_add hproduct places))

/-- A root alone and a number alone lose nothing. -/
theorem losesNone_of_alone (h : s.coefficient = 1 ∨ s.radicand = 1) : s.LosesNone places := by
  intro d hd
  -- A number with the places asked for is one with guard places.
  have hguard : (d : Rat) / 10 ^ places =
      ((d * 10 ^ guardPlaces : Nat) : Rat) / 10 ^ (places + guardPlaces) := by
    have hpos := Decimal.ten_pow_pos guardPlaces
    rw [Nat.cast_mul, Nat.cast_pow, Nat.cast_ofNat, pow_add, mul_div_mul_right _ _ hpos.ne']
  rw [square] at hd
  rw [hguard] at hd ⊢
  rw [cutProduct]
  rcases h with h | h
  · have hunit : Decimal.cutOff (places + guardPlaces) 1 = 1 :=
      (Decimal.cutOff_eq_self_iff 1 _).mpr (one_dvd _)
    rw [h, one_pow, one_mul] at hd
    rw [h, hunit, one_mul]
    exact (FixedPoint.le_cutRoot_iff (Nat.cast_nonneg _) _ _).mpr hd
  · rw [h, Nat.cast_one, mul_one] at hd
    rw [h, Nat.cast_one, FixedPoint.cutRoot_one, mul_one, ← Int.cast_natCast]
    refine (Decimal.le_cutOff_iff hc _ _).mpr ?_
    rw [Int.cast_natCast]
    exact le_of_sq_le_sq hd hc

end Bounds

section Cases

variable {s : Surd} (places : Nat)

/-- Of a number alone the product is the number cut off. -/
theorem cutProduct_of_number (h : s.coefficient = 0 ∨ s.radicand = 1) :
    s.cutProduct places = Decimal.cutOff places s.coefficient := by
  rw [cutProduct]
  rcases h with h | h
  · have hzero : Decimal.cutOff places 0 = 0 :=
      (Decimal.cutOff_eq_self_iff 0 places).mpr (one_dvd _)
    rw [h, hzero, zero_mul]
  · rw [h, Nat.cast_one, FixedPoint.cutRoot_one, mul_one]

theorem square_of_number (h : s.coefficient = 0 ∨ s.radicand = 1) :
    s.square = s.coefficient ^ 2 := by
  rw [square]
  rcases h with h | h
  · rw [h, zero_pow two_ne_zero, zero_mul]
  · rw [h, Nat.cast_one, mul_one]

end Cases

end Surd

namespace Exact

open FixedPoint (guardPlaces)

/-- The text of a tree that simplifies to a surd denotes the product of the factors
    cut off, and a remark tells that it is not exact. -/
theorem run_render_surd (d : Deferred) (messages : List Message) {s : Surd}
    (hop : d.operation = .numeric) (h : d.tree.dividesByZero = .ok false)
    (hform : d.tree.simplify = .ok s.tree) (hplaces : 2 * (d.places + guardPlaces) < Word.counts) :
    ∃ text, (run (render d false) messages).reply = .value (String.ofList text) ∧
      Decimal.Canonical d.places text ∧
      Decimal.denoted text = Decimal.cutOff d.places (s.cutProduct (d.places + guardPlaces)) ∧
      (Decimal.denoted text ^ 2 = s.square ∨
        truncationMessage d.places ∈ (run (render d false) messages).state) := by
  by_cases hnumber : s.coefficient = 0 ∨ s.radicand = 1
  · -- The tree is a number, which is written with the places asked for.
    have hrun := run_render_number d messages s.coefficient hop h
      (hform.trans (congrArg Except.ok (s.tree_of_number hnumber)))
    have hwritten := (Decimal.placesWritten_le s.coefficient d.places).trans_lt
      (by omega : d.places < Word.counts)
    have hdenoted := (Decimal.denoted_ofRat_iff s.coefficient d.places).mpr (.inl hwritten)
    rw [hrun, Surd.cutProduct_of_number _ hnumber, Decimal.cutOff_cutOff]
    refine ⟨_, rfl, Decimal.canonical_ofRat _ _, hdenoted, ?_⟩
    by_cases hflag : (Decimal.ofRat s.coefficient d.places).2 = true
    · left
      rw [hdenoted, (Decimal.ofRat_exact _ _).mp hflag, Surd.square_of_number hnumber]
    · right
      simp only [hflag, Bool.false_eq_true, if_false]
      exact mem_keep _ _
  · -- Neither shape of the tree is a number or has a variable, so its value is read.
    rw [not_or] at hnumber
    rcases hnumber with ⟨h0, h1⟩
    have hvalue :=
      s.value_tree (d.places + guardPlaces) (hplaces.trans Word.counts_lt_sizes) h0 h1
    have hshape := s.tree_of_root h0 h1
    have hvariable : s.tree.firstVariable? = none := by
      rw [hshape]
      split <;> rfl
    have hnone : s.tree.number? = none := by
      rw [hshape]
      split <;> rfl
    rw [run_render_value d messages _ hop h hform hvariable hnone hvalue]
    refine ⟨_, rfl, Decimal.canonical_trim _ _, ?_, .inr (mem_keep _ _)⟩
    rw [Decimal.denoted_trim_of_lt _ (by omega), s.cutOff_cutProduct d.places hplaces]

/-- Twice the places that can be set, guard places included, are a count. -/
theorem scales_of_bounded {s : Settings} (h : s.Bounded) :
    2 * (s.places + guardPlaces) < Word.counts :=
  (Nat.mul_le_mul_left 2 (Nat.add_le_add_right h.places_le guardPlaces)).trans_lt (by decide)

/-- The text of a number times a root, neither of them negative, denotes a number
    that is not above the product. It is the product cut off just when the guard
    places lose nothing. They lose nothing where one of the factors is missing once
    square factors are taken out; otherwise up to a unit of the last guard place is
    lost for each unit that the factors are large. A text that is not exact comes
    with the remark that it is cut off. -/
theorem numeric_surd {a b : Expr} {c r : Rat} (ha : a.simplify = .ok (.rat c))
    (hb : b.simplify = .ok (.rat r)) (hdefined : (Expr.mul a (.sqrt b)).dividesByZero = .ok false)
    (hc : 0 ≤ c) (hr : 0 ≤ r) {places : Nat} (hplaces : 2 * (places + guardPlaces) < Word.counts)
    (messages : List Message) :
    let call := run (render ⟨.mul a (.sqrt b), .numeric, places⟩ false) messages
    let s := Surd.ofProduct c r
    ∃ text, call.reply = .value (String.ofList text) ∧ Decimal.Canonical places text ∧
      0 ≤ Decimal.denoted text ∧ Decimal.denoted text ^ 2 ≤ c ^ 2 * r ∧
      (c ^ 2 * r < (Decimal.denoted text + 1 / 10 ^ places) ^ 2 ↔ s.LosesNone places) ∧
      (s.coefficient = 1 ∨ s.radicand = 1 → s.LosesNone places) ∧
      (∀ u, 0 ≤ u → (s.radicand : Rat) ≤ u ^ 2 →
        c ^ 2 * r < (Decimal.denoted text + 1 / 10 ^ places +
          (s.coefficient + u) / 10 ^ (places + guardPlaces)) ^ 2) ∧
      (Decimal.denoted text ^ 2 = c ^ 2 * r ∨ truncationMessage places ∈ call.state) := by
  intro call s
  have hcoefficient : 0 ≤ s.coefficient := Surd.coefficient_ofProduct_nonneg hc r
  have hproduct := Surd.cutProduct_nonneg hcoefficient (places + guardPlaces)
  have hsquare : s.square = c ^ 2 * r := Surd.square_ofProduct c hr
  rcases run_render_surd ⟨.mul a (.sqrt b), .numeric, places⟩ messages rfl hdefined
    (Surd.simplify_product ha hb hr) hplaces with ⟨text, hreply, hcanonical, hdenoted, hremark⟩
  have hnonneg := Decimal.cutOff_nonneg hproduct places
  rw [← hsquare]
  refine ⟨text, hreply, hcanonical, ?_, ?_, ?_, Surd.losesNone_of_alone hcoefficient places, ?_,
    hremark⟩
  · rw [hdenoted]
    exact hnonneg
  · rw [hdenoted]
    exact (pow_le_pow_left₀ hnonneg (Decimal.cutOff_le hproduct places) 2).trans
      (Surd.cutProduct_sq_le hcoefficient _)
  · rw [hdenoted]
    exact Surd.lt_add_sq_iff hcoefficient places
  · intro u hu hn
    -- What the product loses and what cutting it off loses add up.
    have hloss := Surd.square_le_cutProduct_add_sq hcoefficient (places + guardPlaces) hu hn
    have hfactors : 0 ≤ (s.coefficient + u) / 10 ^ (places + guardPlaces) :=
      div_nonneg (add_nonneg hcoefficient hu) (Decimal.ten_pow_pos _).le
    have hcut := Decimal.lt_cutOff_add hproduct places
    rw [hdenoted]
    refine hloss.trans_lt (pow_lt_pow_left₀ ?_ (add_nonneg hproduct hfactors) two_ne_zero)
    exact add_lt_add_left hcut _

/-- With a coefficient of twelve digits the last of twenty places is lost. -/
theorem numeric_surd_lost :
    (Expr.mul (.rat (10 ^ 11)) (.sqrt (.rat 2))).dividesByZero = .ok false ∧
      (run (render ⟨.mul (.rat (10 ^ 11)) (.sqrt (.rat 2)), .numeric, 20⟩ false) []).reply =
        .value "141421356237.3095048801688724209" ∧
      (Decimal.denoted "141421356237.3095048801688724209".toList + 1 / 10 ^ 20) ^ 2 ≤
        (10 ^ 11) ^ 2 * 2 ∧
      ¬(Surd.ofProduct (10 ^ 11) 2).LosesNone 20 := by
  have hdefined : (Expr.mul (.rat (10 ^ 11)) (.sqrt (.rat 2))).dividesByZero = .ok false := rfl
  have hplaces : 2 * (20 + guardPlaces) < Word.counts := scales_of_bounded Settings.bounded_default
  rcases numeric_surd (c := 10 ^ 11) (r := 2) rfl rfl hdefined (by positivity) zero_le_two hplaces
    [] with ⟨text, hreply, -, -, -, hiff, -⟩
  have hresult : result (render ⟨.mul (.rat (10 ^ 11)) (.sqrt (.rat 2)), .numeric, 20⟩ false) =
      .ok "141421356237.3095048801688724209" := by decide +kernel
  have htext : text = "141421356237.3095048801688724209".toList := by
    rw [result_of_reply (adds_render _ _) hreply, Except.ok.injEq] at hresult
    rw [← hresult, String.toList_ofList]
  rw [htext] at hiff hreply
  have hbelow : (Decimal.denoted "141421356237.3095048801688724209".toList + 1 / 10 ^ 20) ^ 2 ≤
      (10 ^ 11) ^ 2 * 2 := by decide +kernel
  exact ⟨hdefined, hreply, hbelow, fun hnone => absurd (hiff.mpr hnone) (not_lt.mpr hbelow)⟩

end Exact

end ExactCalc
