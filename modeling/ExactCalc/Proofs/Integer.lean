import ExactCalc.Proofs.Evaluation
import ExactCalc.Proofs.Prepared.Integer
import ExactCalc.Proofs.Simplify.Arithmetic
import ExactCalc.Proofs.Token.Cut
import Mathlib.Data.List.Infix

/-!
# Integers Converted and Calculated

A conversion and a calculation read typed integers alike.

The one takes the marker off and reads the digits in its base. The other prepares
the text, cuts the expression into tokens, puts them into a tree in which the
sign is a subtraction from zero, simplifies that tree and writes the number it
is. Both come to the number that the digits denote, and an integer is written in
full whatever number of places is allowed, since its decimal form has none.

## Main definitions

* `Numeral.Typed.tree`: The tree of a typed integer.

## Theorems

* `cut_normal`: A literal of an integer is one number.
* `parse_typed`: The tree of a typed integer, which needs a depth of two.
* `ofRat_int`: An integer is written in full.
* `conversion_calculated`: A conversion and a calculation agree.
-/

namespace ExactCalc

namespace Token

/-- The written form of a literal without points is one number. -/
theorem cut_normal {l : Literal} (hne : l.digits ≠ [])
    (hds : ∀ c ∈ l.digits, l.radix.accepts c = true) :
    Cut l.normal [.num (Numeral.value l.radix.size l.digits)] := by
  have hread : ∀ pos, readNumber l.radix pos l.digits =
      .ok ((Numeral.value l.radix.size l.digits : Rat), l.digits.length) := by
    intro pos
    have h := readNumber_digits hne hds stops_nil pos
    rwa [List.append_nil] at h
  unfold Literal.normal
  by_cases hmarked : (l.explicit || decide (l.radix ≠ .dec)) = true
  · rw [if_pos hmarked]
    refine Cut.marked hread ?_
    rw [List.drop_length]
    exact .nil
  · rw [if_neg hmarked]
    have hdec : l.radix = .dec := by
      rw [Bool.or_eq_true, decide_eq_true_eq, not_or, not_not] at hmarked
      exact hmarked.2
    rw [hdec] at hread hds ⊢
    rcases hcs : l.digits with _ | ⟨c, cs⟩
    · exact absurd hcs hne
    rw [hcs] at hread hds
    -- What follows the first digit is a digit, so no marker begins here.
    have hmarker : Radix.splitLongMarker? (c :: cs) = none := by
      refine Radix.splitLongMarker?_eq_none (fun d hd => ?_)
      have hdigit := hds d (List.mem_cons_of_mem c (List.mem_of_mem_head? hd))
      exact Radix.not_markerLetter_of_isDigit (Radix.isDigit_of_accepts (by decide) hdigit)
    have hc := Radix.isDigit_of_accepts (by decide) (hds c List.mem_cons_self)
    refine Cut.plain hmarker (by rw [hc, Bool.true_or]) hread ?_
    rw [List.length_cons, Nat.add_sub_cancel, List.drop_length]
    exact .nil

end Token

namespace Decimal

/-- An integer is written in full, whatever places are allowed. -/
theorem ofRat_int (n : Int) (places : Nat) : ofRat n places = (Numeral.ofInt .dec n, true) := by
  have hplaces : places? 1 = some 0 := by
    rw [places?, divideOut, dif_neg (by decide)]
    simp only
    rw [divideOut, dif_neg (by decide)]
    rfl
  have hscaled : ofScaled (scaled n 0) 0 = Numeral.ofInt .dec n := by
    have hone : (scale 0 : Int) = 1 := rfl
    rw [scaled, Rat.num_intCast, Rat.den_intCast, hone, Int.mul_one, Nat.cast_one, Int.tdiv_one]
    have htext : (n.natAbs / scale 0).repr.toList = Numeral.digits .dec n.natAbs := by
      rw [show n.natAbs / scale 0 = n.natAbs from Nat.div_one _]
      exact Numeral.toList_repr n.natAbs
    rw [ofScaled, if_pos rfl, htext, Numeral.ofInt]
    split <;> rfl
  have hpoint : (Numeral.ofInt .dec n).contains '.' = false := by
    rw [← Bool.not_eq_true, List.contains_iff_mem]
    intro hmem
    have hdigits : '.' ∉ Numeral.digits .dec n.natAbs := fun hmem =>
      absurd (Numeral.accepts_of_mem_digits .dec n.natAbs '.' hmem) (by decide)
    rw [Numeral.ofInt] at hmem
    split at hmem
    · exact hdigits ((List.mem_cons.mp hmem).resolve_left (by decide))
    · exact hdigits hmem
  rw [ofRat, Rat.den_intCast, hplaces]
  have htrim : trim (Numeral.ofInt .dec n) = Numeral.ofInt .dec n :=
    if_neg (Bool.not_eq_true _ ▸ hpoint)
  simp only [Nat.zero_le, if_true, hscaled, htrim]

end Decimal

namespace Numeral.Typed

open Exact (parse resolution evaluation engine)

variable {session : Radix} {text : List Char} (t : Typed session text)

/-- The tree of a typed integer: the sign is a subtraction from zero. -/
def tree : Expr :=
  if t.negative then .sub (.rat 0) (.rat (t.size : Rat)) else .rat (t.size : Rat)

theorem digits_accepted : ∀ c ∈ t.literal.digits, t.radix.accepts c = true := by
  intro c hc
  have hbody := t.body_class c (List.mem_filter.mp hc).1
  refine hbody.resolve_left (fun hsep => ?_)
  have hnot := (List.mem_filter.mp hc).2
  rw [hsep] at hnot
  exact absurd hnot (by decide)

theorem cut_expression :
    Token.Cut t.expression
      (if t.negative then [.minus, .num (t.size : Rat)] else [.num (t.size : Rat)]) := by
  have hnormal := Token.cut_normal (l := t.literal) t.digits_ne_nil t.digits_accepted
  rw [expression]
  cases t.negative with
  | false => exact hnormal
  | true => exact .sign rfl hnormal

/-- The tree of a typed integer needs a depth of two, for its sign. -/
theorem parse_typed {bound : Nat} (hbound : 2 ≤ bound) : parse bound t.expression = .ok t.tree := by
  have hone : ¬1 > bound := by omega
  rw [parse, Token.tokenize, t.cut_expression 0, tree]
  cases t.negative with
  | false =>
      show Expr.ofPostfix bound [.num (t.size : Rat)] = _
      simp only [Expr.ofPostfix, Expr.reduceAll, Expr.reduce, hone, if_false]
      rfl
  | true =>
      show Expr.ofPostfix bound [.num (t.size : Rat), .neg] = _
      have htop : ¬1 + 1 > bound := by omega
      simp only [Expr.ofPostfix, Expr.reduceAll, Expr.reduce, hone, htop, if_false]
      rfl

@[simp] theorem trim_expression : Text.trim t.expression = t.expression := by
  refine Text.trim_eq_self (fun c hc => ?_)
  have hdigits : ∀ c ∈ t.literal.digits, Text.isBlank c = false := by
    intro c hc
    have hsep := Radix.isSeparator_of_accepts (t.digits_accepted c hc)
    rw [isSeparator, Bool.or_eq_false_iff] at hsep
    exact hsep.1
  have hmarker : ∀ c ∈ t.literal.radix.marker, Text.isBlank c = false := by
    cases t.literal.radix <;> exact Text.forall_of_all (by decide)
  rw [expression, List.mem_append] at hc
  rcases hc with hc | hc
  · cases hsign : t.negative with
    | false =>
        rw [hsign] at hc
        exact absurd hc List.not_mem_nil
    | true =>
        rw [hsign] at hc
        rw [List.mem_singleton.mp hc]
        decide
  · unfold Literal.normal at hc
    split at hc
    · exact (List.mem_append.mp hc).elim (hmarker c) (hdigits c)
    · exact hdigits c hc

/-- Evaluating the expression ends in the tree, whatever the constants are. -/
theorem evaluation_typed (settings : Settings) (registry : Registry)
    (hbound : 2 ≤ settings.depthBound) :
    evaluation settings registry (String.ofList t.expression) .numeric false =
      .ok ⟨t.tree, .numeric, settings.places⟩ := by
  have hfull : ¬t.expression.isEmpty = true := by
    rw [List.isEmpty_iff]
    intro hnil
    have hcut := t.cut_expression 0
    rw [hnil, Token.tokenizeFrom] at hcut
    cases hsign : t.negative <;> rw [hsign] at hcut <;>
      cases Except.ok.inj hcut
  -- There is no name in the tree, so there is nothing to put in.
  have hresolve : resolution registry settings.depthBound t.tree .empty = .ok t.tree := by
    rw [resolution, Exact.resolve, tree]
    cases t.negative <;> rfl
  have hdepth : ¬t.tree.depth > settings.depthBound := by
    have htwo : t.tree.depth ≤ 2 := by
      rw [tree]
      cases t.negative with
      | false => exact Nat.le_succ 1
      | true => exact Nat.le_refl 2
    omega
  rw [evaluation, String.toList_ofList, t.trim_expression, if_neg Bool.false_ne_true, if_neg hfull,
    t.parse_typed hbound]
  show resolution registry settings.depthBound t.tree .empty >>= _ = _
  rw [hresolve]
  exact if_neg hdepth

theorem render_typed (places : Nat) :
    Exact.result (Exact.render ⟨t.tree, .numeric, places⟩ false) =
      .ok (String.ofList (ofInt .dec t.toInt)) := by
  have htest : t.tree.dividesByZero = .ok false := by
    rw [tree]
    cases t.negative <;> rfl
  have hform : t.tree.simplify = .ok (.rat (t.toInt : Rat)) := by
    rw [tree, toInt]
    cases t.negative with
    | false =>
        rw [if_neg Bool.false_ne_true, if_neg Bool.false_ne_true, Int.cast_natCast]
        rfl
    | true =>
        rw [if_pos rfl, if_pos rfl, Int.cast_neg, Int.cast_natCast, ← zero_sub]
        exact congrArg Except.ok (Expr.minus_rat 0 (t.size : Rat))
  have hreply : (Exact.run (Exact.render ⟨t.tree, .numeric, places⟩ false) []).reply =
      .value (String.ofList (ofInt .dec t.toInt)) := by
    rw [Exact.run_render_number ⟨t.tree, .numeric, places⟩ [] _ rfl htest hform,
      Decimal.ofRat_int]
  exact Exact.result_of_reply (Exact.adds_render _ _) hreply

end Numeral.Typed

/-- A text that is converted to the decimal base is prepared in the base it is
    converted from, and the exact engine calculates from it just what it is
    converted to: whatever marker, sign, leading zeros and separators there are,
    whatever the constants, the places and the messages kept. The one proviso is
    that the short marker of base sixteen stands in front of no separator. -/
theorem conversion_calculated (session : Radix) (text answer : String)
    (hconvert : Numeral.convert text session .dec = .ok answer)
    (hshort : ∀ c ∈ text.toList, Numeral.isSeparator c = true →
      ¬Radix.shortMarker ++ [c] <:+: text.toList) :
    ∃ p, (∀ registry, Prepared.ofText registry session text = .ok p) ∧
      ∀ (settings : Settings) (registry : Registry) (kept : List Message),
        2 ≤ settings.depthBound →
          ((Exact.engine settings registry).attempt p.expression .numeric false kept).reply =
            .value answer := by
  rcases hread : Numeral.readInt session text.toList with e | n
  · rw [Numeral.convert, hread] at hconvert
    cases hconvert
  rw [Numeral.convert, hread] at hconvert
  have hanswer : String.ofList (Numeral.ofInt .dec n) = answer := Except.ok.inj hconvert
  rcases Numeral.typed_of_readInt hread (fun c hsep hinside =>
    hshort c (hinside.subset (List.mem_append_right _ List.mem_cons_self)) hsep hinside) with
    ⟨t, ht⟩
  refine ⟨⟨String.ofList t.expression, []⟩, Prepared.ofText_typed t, ?_⟩
  intro settings registry kept hbound
  rw [Exact.reply_attempt, t.evaluation_typed settings registry hbound]
  simp only [t.render_typed, Exact.replyOf, ht, hanswer]

/-- A negative number in base sixteen, with the short marker and with separators on
    all sides. -/
theorem conversion_calculated_grouped :
    Numeral.convert " - 0xF'F 0" .dec .dec = .ok "-4080" ∧
      ∃ p, Prepared.ofText .standard .dec " - 0xF'F 0" = .ok p ∧
        ((Exact.engine {} .standard).attempt p.expression .numeric false []).reply =
          .value "-4080" := by
  have hconvert : Numeral.convert " - 0xF'F 0" .dec .dec = .ok "-4080" := by decide +kernel
  have hshort : ∀ c ∈ " - 0xF'F 0".toList, Numeral.isSeparator c = true →
      ¬Radix.shortMarker ++ [c] <:+: " - 0xF'F 0".toList := by
    intro c _ hsep hinside
    have hF : c = 'F' := by simpa [Radix.shortMarker, List.infix_cons_iff] using hinside
    rw [hF] at hsep
    exact absurd hsep (by decide)
  rcases conversion_calculated .dec " - 0xF'F 0" "-4080" hconvert hshort with ⟨p, hp, hreply⟩
  exact ⟨hconvert, p, hp .standard, hreply {} .standard [] (by decide)⟩

end ExactCalc
