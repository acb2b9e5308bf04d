import ExactCalc.Expr.Readable
import ExactCalc.Proofs.Interpretation
import ExactCalc.Proofs.Postfix.Infix
import ExactCalc.Proofs.Token.Spelling
import Mathlib.Data.Rat.Cast.CharZero
import Mathlib.Data.Rat.Cast.Lemmas
import Mathlib.Tactic.Ring

/-!
# Readable Text Reads Back

The text an expression is written as is read as an expression of the same value.

It is not read as the same tree. A rational number comes back as a quotient, a
fraction of something atomic as a product divided by the denominator, and a
negative number as a difference from zero; and where the sign of a second
operand has turned a sum into a difference, the sign has moved from inside the
operand to in front of it. All of these keep the value in every field where
whole numbers other than zero are not zero, whatever roots, moduli, powers and
divisions by zero mean there.

The proof follows the writer. The text of a tree spells tokens, and the tokens
derive a tree from the phrase of the infix grammar that the level of the text
stands for. A level is a promise about how tightly the text binds, and brackets
are put wherever the promise is too weak for the place; so an operand always
derives the phrase its place asks for. The sign that moves is the only thing
that does not follow the tree, and it moves the same way in the grammar: a
product behind a minus sign and the same product without it have opposite
values, since the sign belongs to the first factor.

## Main definitions

* `Expr.names`: The names in a tree, from left to right.
* `IsIdentifier`: A name that is read back as a variable.
* `SameValue`, `Opposite`: Trees of equal or opposite value in every field.
* `Rereads`: A text reads back at its level with the value of a tree.

## Theorems

* `derives_minus`, `derives_of_minus`: A sign in front of a product.
* `rereads_rat`, `rereads_scaled`, `rereads_sum`: Texts with a sign that moves.
* `rereads_write`: The text of every tree reads back at its level.
* `readable_reread`: The text of a tree is read as a tree of the same value.
-/

namespace ExactCalc

universe u

namespace Expr

/-- The names in a tree, from left to right, as often as they occur. -/
def names : Expr → List String
  | rat _ | pi => []
  | var name => [name]
  | sqrt x | abs x => x.names
  | pow a b | add a b | sub a b | mul a b | div a b => a.names ++ b.names

/-- A name that starts with a letter or an underscore, goes on with letters,
    digits and underscores, and means nothing else. -/
def IsIdentifier (name : String) : Prop :=
  (∃ c cs, name.toList = c :: cs ∧ isNameStart c = true ∧ ∀ d ∈ cs, isNameChar d = true) ∧
    name ≠ "pi" ∧ name ≠ "sqrt" ∧ name ≠ "abs"

/-- Two trees stand for the same number, whatever their symbols stand for. -/
def SameValue (x y : Expr) : Prop :=
  ∀ (K : Type u) [Field K] [CharZero K] (I : Interpretation K), I.value x = I.value y

/-- Two trees stand for opposite numbers, whatever their symbols stand for. -/
def Opposite (x y : Expr) : Prop :=
  ∀ (K : Type u) [Field K] [CharZero K] (I : Interpretation K), I.value x = -I.value y

/-- The phrase of the infix grammar that a text of a level derives. -/
def Level.phrase : Level → Postfix.Phrase
  | .sum => .sum
  | .product => .product
  | .sign => .power
  | .power => .power
  | .atom => .factor

/-- A text spells tokens that derive a tree at its level, and the tree has the
    value of a given one. -/
def Rereads (text : List Char × Level) (e : Expr) : Prop :=
  ∃ ts x, Token.Spells text.1 ts ∧ Postfix.Derives text.2.phrase ts x ∧ SameValue.{u} x e

open Postfix (Derives)
open Token (Spells)

theorem SameValue.refl (x : Expr) : SameValue.{u} x x := fun _ _ _ _ => rfl

/-- A minus sign in front of a product belongs to its first factor and makes the
    whole its opposite. -/
theorem derives_minus {ts : List Token} {x : Expr} (h : Derives .product ts x) :
    ∃ y, Derives .product (.minus :: ts) y ∧ Opposite.{u} y x := by
  generalize hph : Postfix.Phrase.product = ph at h
  induction h with
  | @power ts x h _ =>
      refine ⟨_, .power (.signed (.negative h)), fun K _ _ I => ?_⟩
      simp only [Interpretation.value, Rat.cast_zero, zero_sub]
  | @times as bs a b t ht ha hb iha _ =>
      rcases iha hph with ⟨y, hy, hopp⟩
      refine ⟨_, .times ht hy hb, fun K _ _ I => ?_⟩
      rcases ht with rfl | rfl
      · simp only [operation, Interpretation.value, hopp K I, neg_mul]
      · simp only [operation, Interpretation.value, hopp K I, I.divide_neg]
  | _ => cases hph

theorem ne_minus_of_factor {ts : List Token} {x : Expr} (h : Derives .factor ts x) :
    ts.head? ≠ some .minus := by
  cases h <;> simp only [List.head?_cons, ne_eq, Option.some.injEq, reduceCtorEq,
    not_false_eq_true]

theorem Derives.ne_nil {ph : Postfix.Phrase} {ts : List Token} {x : Expr} (h : Derives ph ts x) :
    ts ≠ [] := by
  induction h with
  | product _ ih | power _ ih | factor _ ih | signed _ ih => exact ih
  | sum | times | raised => exact List.append_ne_nil_of_right_ne_nil _ (List.cons_ne_nil _ _)
  | _ => exact List.cons_ne_nil _ _

/-- Taking a minus sign off the front of a product makes it its opposite. -/
theorem derives_of_minus {ts : List Token} {x : Expr} (h : Derives .product (.minus :: ts) x) :
    ∃ y, Derives .product ts y ∧ Opposite.{u} y x := by
  generalize hph : Postfix.Phrase.product = ph at h
  generalize hrow : Token.minus :: ts = row at h
  induction h generalizing ts with
  | @power row x h _ =>
      -- The sign can only be that of a signed operand, which is the whole phrase.
      cases h with
      | factor h => exact absurd (hrow ▸ rfl) (ne_minus_of_factor h)
      | @raised as bs a b ha hb =>
          refine absurd ?_ (ne_minus_of_factor ha)
          rcases as with _ | ⟨c, as⟩
          · exact absurd rfl (Derives.ne_nil ha)
          · rw [List.cons_append, List.cons.injEq] at hrow
            rw [List.head?_cons, hrow.1]
      | signed h =>
          cases h with
          | @negative ts' y h =>
              rw [List.cons.injEq] at hrow
              refine ⟨y, .power (hrow.2 ▸ h), fun K _ _ I => ?_⟩
              simp only [Interpretation.value, Rat.cast_zero, zero_sub, neg_neg]
          | _ =>
              exact absurd (List.cons.inj hrow).1
                (by simp)
  | @times as bs a b t ht ha hb iha _ =>
      -- The sign is that of the first factor.
      rcases as with _ | ⟨c, as⟩
      · exact absurd rfl (Derives.ne_nil ha)
      rw [List.cons_append, List.cons.injEq] at hrow
      rcases iha hph (by rw [hrow.1]) with ⟨y, hy, hopp⟩
      refine ⟨_, hrow.2 ▸ Derives.times ht hy hb, fun K _ _ I => ?_⟩
      rcases ht with rfl | rfl
      · simp only [operation, Interpretation.value, hopp K I, neg_mul]
      · simp only [operation, Interpretation.value, hopp K I, I.divide_neg]
  | _ => cases hph

/-- A phrase is also every looser one. -/
theorem derives_of_rank_le {l required : Level} {ts : List Token} {x : Expr}
    (h : Derives l.phrase ts x) (hrank : required.rank ≤ l.rank) :
    Derives required.phrase ts x := by
  cases l <;> cases required <;>
    first
    | exact h
    | exact absurd hrank (by decide)
    | exact .factor h
    | exact .power h
    | exact .product h
    | exact .power (.factor h)
    | exact .product (.power h)
    | exact .product (.power (.factor h))

theorem rereads_bracketed {text : List Char} {ts : List Token} {x : Expr} (hs : Spells text ts)
    (hx : Derives .sum ts x) :
    Spells (bracketed text) (.lparen :: (ts ++ [.rparen])) ∧
      Derives .factor (.lparen :: (ts ++ [.rparen])) x :=
  ⟨.sign rfl (hs.joined .nil rfl), .group hx⟩

/-- An operand reads back at the level its place requires. -/
theorem rereads_operand {text : List Char × Level} {e : Expr} (h : Rereads.{u} text e)
    (required : Level) : Rereads.{u} (operandText required text, required) e := by
  rcases h with ⟨ts, x, hs, hx, hval⟩
  have hlowest : Level.sum.rank ≤ text.2.rank := by cases text.2 <;> decide
  have hsum : Derives Level.sum.phrase ts x := derives_of_rank_le hx hlowest
  unfold operandText
  by_cases hrank : text.2.rank < required.rank
  · -- Too loose for its place, the operand stands between brackets.
    rcases rereads_bracketed hs hsum with ⟨hs', hx'⟩
    have hhighest : required.rank ≤ Level.atom.rank := by cases required <;> decide
    have hatom : Derives Level.atom.phrase (.lparen :: (ts ++ [.rparen])) x := hx'
    rw [if_pos hrank]
    exact ⟨_, x, hs', derives_of_rank_le hatom hhighest, hval⟩
  · rw [if_neg hrank]
    exact ⟨ts, x, hs, derives_of_rank_le hx (Nat.le_of_not_lt hrank), hval⟩

/-- A minus sign in front of a product reads back as its opposite. -/
theorem rereads_minus {text : List Char} {ts : List Token} {x e : Expr} (hs : Spells text ts)
    (hx : Derives .product ts x) (hval : Opposite.{u} x e) :
    Rereads.{u} ('-' :: text, .product) e := by
  rcases derives_minus.{u} hx with ⟨y, hy, hopp⟩
  refine ⟨.minus :: ts, y, .sign rfl hs, hy, fun K _ _ I => ?_⟩
  rw [hopp K I, hval K I, neg_neg]

theorem spells_natText (n : Nat) : Spells (natText n) [.num n] := by
  rw [natText, Numeral.toList_repr]
  exact Token.spells_digits n

section Casting

variable {K : Type u} [Field K] {q : Rat}

theorem cast_of_num_nonneg (h : ¬q.num < 0) : (q : K) = (q.num.natAbs : K) / (q.den : K) := by
  have habs : (q.num.natAbs : Int) = q.num := Int.natAbs_of_nonneg (by omega)
  rw [Rat.cast_def, ← Int.cast_natCast q.num.natAbs, habs]

theorem cast_of_num_neg (h : q.num < 0) : (q : K) = -((q.num.natAbs : K) / (q.den : K)) := by
  have habs : (q.num.natAbs : Int) = -q.num := by omega
  rw [Rat.cast_def, ← Int.cast_natCast q.num.natAbs, habs, Int.cast_neg, neg_div, neg_neg]

theorem cast_den_of_isWhole (h : Rational.isWhole q = true) : (q.den : K) = 1 := by
  rw [Rational.isWhole, beq_iff_eq] at h
  rw [h, Nat.cast_one]

theorem value_fraction [CharZero K] (I : Interpretation K) (a b : Expr) (q : Rat)
    (hb : I.value b = (q.den : K)) : I.value (.div a b) = I.value a / (q.den : K) := by
  have hden : (q.den : K) ≠ 0 := Nat.cast_ne_zero.mpr q.den_ne_zero
  simp only [Interpretation.value]
  rw [hb, I.divide_of_ne _ hden]

end Casting

/-- A number reads back as a number, a fraction as a quotient. -/
theorem rereads_rat (q : Rat) : Rereads.{u} (writeRat q) (.rat q) := by
  unfold writeRat intText
  by_cases hwhole : Rational.isWhole q = true
  · rw [if_pos hwhole]
    by_cases hneg : q.num < 0
    · rw [if_pos hneg, if_pos hneg]
      refine ⟨_, _, .sign rfl (spells_natText _), .signed (.negative (.factor (.number _))), ?_⟩
      intro K _ _ I
      simp only [Interpretation.value, Rat.cast_zero, zero_sub, Rat.cast_natCast]
      rw [cast_of_num_neg hneg, cast_den_of_isWhole hwhole, div_one]
    · rw [if_neg hneg, if_neg hneg]
      refine ⟨_, _, spells_natText _, .number _, ?_⟩
      intro K _ _ I
      simp only [Interpretation.value, Rat.cast_natCast]
      rw [cast_of_num_nonneg hneg, cast_den_of_isWhole hwhole, div_one]
  · rw [if_neg hwhole]
    have hspells : Spells (natText q.num.natAbs ++ '/' :: natText q.den)
        [.num q.num.natAbs, .slash, .num q.den] :=
      (spells_natText _).joined (spells_natText _) rfl
    have hderives : Derives .product [.num q.num.natAbs, .slash, .num q.den]
        (.div (.rat q.num.natAbs) (.rat q.den)) :=
      .times (.inr rfl) (.power (.factor (.number _))) (.factor (.number _))
    have hvalue : ∀ (K : Type u) [Field K] [CharZero K] (I : Interpretation K),
        I.value (.div (.rat q.num.natAbs) (.rat q.den)) = (q.num.natAbs : K) / (q.den : K) := by
      intro K _ _ I
      rw [value_fraction I _ _ q (Rat.cast_natCast q.den)]
      simp only [Interpretation.value, Rat.cast_natCast]
    by_cases hneg : q.num < 0
    · rw [if_pos hneg]
      refine rereads_minus hspells hderives (fun K _ _ I => ?_)
      rw [hvalue, Interpretation.value, cast_of_num_neg hneg, neg_neg]
    · rw [if_neg hneg]
      refine ⟨_, _, hspells, hderives, fun K _ _ I => ?_⟩
      rw [hvalue, Interpretation.value, cast_of_num_nonneg hneg]

/-- The numerator of a number times something atomic, the sign left out. -/
theorem spells_numerator {n : Nat} {text : List Char} {e : Expr}
    (h : Rereads.{u} (text, .atom) e) :
    ∃ ts x, Spells (if n = 1 then text else natText n ++ '*' :: text) ts ∧
      Derives .product ts x ∧ (n = 1 → Derives .factor ts x) ∧
      ∀ (K : Type u) [Field K] [CharZero K] (I : Interpretation K),
        I.value x = (n : K) * I.value e := by
  rcases h with ⟨ts, x, hs, hx, hval⟩
  by_cases h1 : n = 1
  · rw [if_pos h1]
    refine ⟨ts, x, hs, .power (.factor hx), fun _ => hx, fun K _ _ I => ?_⟩
    rw [hval K I, h1, Nat.cast_one, one_mul]
  · rw [if_neg h1]
    refine ⟨_, _, (spells_natText n).joined hs rfl,
      .times (.inl rfl) (.power (.factor (.number _))) (.factor hx), fun h => absurd h h1,
      fun K _ _ I => ?_⟩
    simp only [operation, Interpretation.value, Rat.cast_natCast, hval K I]

/-- A number times something atomic reads back as a fraction of it. -/
theorem rereads_scaled (c : Rat) {text : List Char} {e : Expr}
    (h : Rereads.{u} (text, .atom) e) : Rereads.{u} (writeScaled c text) (.mul (.rat c) e) := by
  unfold writeScaled
  by_cases h0 : c.num.natAbs = 0
  · -- The number zero leaves nothing of the other factor.
    have hc : c = 0 := Rat.num_eq_zero.mp (Int.natAbs_eq_zero.mp h0)
    simp only [h0, if_true]
    refine ⟨_, _, spells_natText 0, .number _, fun K _ _ I => ?_⟩
    simp only [hc, Interpretation.value, Nat.cast_zero, Rat.cast_zero, zero_mul]
  simp only [h0, if_false]
  rcases spells_numerator.{u} (n := c.num.natAbs) h with ⟨ts, x, hs, hx, hone, hval⟩
  by_cases hwhole : Rational.isWhole c = true
  · rw [if_pos hwhole]
    by_cases hneg : c.num < 0
    · simp only [hneg, if_true, List.singleton_append]
      have hopp : Opposite.{u} x (.mul (.rat c) e) := by
        intro K _ _ I
        rw [hval K I, Interpretation.value, Interpretation.value, cast_of_num_neg hneg,
          cast_den_of_isWhole hwhole, div_one, neg_mul, neg_neg]
      -- In front of something atomic the sign makes an operand, in front of a product a product.
      by_cases h1 : c.num.natAbs = 1
      · rw [if_neg (not_not.mpr h1)]
        refine ⟨_, _, .sign rfl hs, .signed (.negative (.factor (hone h1))), fun K _ _ I => ?_⟩
        rw [Interpretation.value, Interpretation.value, hopp K I, Rat.cast_zero, zero_sub, neg_neg]
      · rw [if_pos h1]
        exact rereads_minus hs hx hopp
    · simp only [hneg, if_false, List.nil_append]
      have hsame : SameValue.{u} x (.mul (.rat c) e) := by
        intro K _ _ I
        rw [hval K I, Interpretation.value, Interpretation.value, cast_of_num_nonneg hneg,
          cast_den_of_isWhole hwhole, div_one]
      by_cases h1 : c.num.natAbs = 1
      · rw [if_neg (not_not.mpr h1)]
        exact ⟨ts, x, hs, hone h1, hsame⟩
      · rw [if_pos h1]
        exact ⟨ts, x, hs, hx, hsame⟩
  · rw [if_neg hwhole]
    -- The denominator comes last, behind the whole numerator.
    have hquotient : Derives .product (ts ++ .slash :: [.num c.den]) (.div x (.rat c.den)) :=
      .times (.inr rfl) hx (.factor (.number _))
    have hspells := hs.joined (spells_natText c.den) (show Token.ofChar? '/' = some .slash from rfl)
    have hvalue : ∀ (K : Type u) [Field K] [CharZero K] (I : Interpretation K),
        I.value (.div x (.rat c.den)) = (c.num.natAbs : K) / (c.den : K) * I.value e := by
      intro K _ _ I
      rw [value_fraction I _ _ c (Rat.cast_natCast c.den), hval K I, mul_div_right_comm]
    by_cases hneg : c.num < 0
    · simp only [hneg, if_true, List.cons_append]
      refine rereads_minus hspells hquotient (fun K _ _ I => ?_)
      rw [hvalue, Interpretation.value, Interpretation.value, cast_of_num_neg hneg, neg_mul,
        neg_neg]
    · simp only [hneg, if_false, List.nil_append]
      refine ⟨_, _, hspells, hquotient, fun K _ _ I => ?_⟩
      rw [hvalue, Interpretation.value, Interpretation.value, cast_of_num_nonneg hneg]

/-- A sum or a difference reads back, also when the sign of its second operand
    has turned it into the other. -/
theorem rereads_sum {left right : List Char × Level} {a b : Expr} {sign flipped : Char}
    {t f : Token} (ha : Rereads.{u} left a) (hb : Rereads.{u} right b)
    (hsign : Token.ofChar? sign = some t) (hflipped : Token.ofChar? flipped = some f)
    (htf : (t = .plus ∧ f = .minus) ∨ (t = .minus ∧ f = .plus)) :
    Rereads.{u} (writeSum left right sign flipped) (.operation t a b) := by
  rcases rereads_operand ha .sum with ⟨as, x, has, hx, hxval⟩
  rcases hb with ⟨bs, y, hbs, hy, hyval⟩
  have ht : t = .plus ∨ t = .minus := htf.imp (·.1) (·.1)
  have hf : f = .plus ∨ f = .minus := (htf.imp (·.2) (·.2)).symm
  have hsame : ∀ (K : Type u) [Field K] [CharZero K] (I : Interpretation K),
      I.value (.operation t x y) = I.value (.operation t a b) := by
    intro K _ _ I
    rcases ht with rfl | rfl <;> simp only [operation, Interpretation.value, hxval K I, hyval K I]
  unfold writeSum
  by_cases hlevel : right.2 = .sum
  · -- A sum as second operand keeps its brackets, and its sign with them.
    rw [hlevel] at hy
    rcases rereads_bracketed hbs hy with ⟨hs, hd⟩
    simp only [hlevel, if_true]
    exact ⟨_, _, has.joined hs hsign, .sum ht hx (.power (.factor hd)), hsame⟩
  -- Otherwise the second operand is at least a product, whose minus can be moved out.
  have hproduct : Derives Level.product.phrase bs y := by
    refine derives_of_rank_le hy ?_
    revert hlevel
    cases right.2 <;> decide
  simp only [hlevel, if_false]
  split
  · -- The sign moves out of the second operand.
    rename_i rest hright
    rw [hright] at hbs
    rcases hbs.of_minus with ⟨bs', rfl, hbs'⟩
    rcases derives_of_minus.{u} hproduct with ⟨z, hz, hopp⟩
    refine ⟨_, _, has.joined hbs' hflipped, .sum hf hx hz, fun K _ _ I => ?_⟩
    rw [← hsame]
    rcases htf with ⟨rfl, rfl⟩ | ⟨rfl, rfl⟩
    · simp only [operation, Interpretation.value, hopp K I, sub_neg_eq_add]
    · simp only [operation, Interpretation.value, hopp K I, sub_eq_add_neg]
  · exact ⟨_, _, has.joined hbs hsign, .sum ht hx hproduct, hsame⟩

theorem rereads_product {left right : List Char × Level} {a b : Expr} {sign : Char} {t : Token}
    (ha : Rereads.{u} left a) (hb : Rereads.{u} right b) (hsign : Token.ofChar? sign = some t)
    (ht : t = .star ∨ t = .slash) :
    Rereads.{u} (operandText .product left ++ sign :: operandText .sign right, .product)
      (.operation t a b) := by
  rcases rereads_operand ha .product with ⟨as, x, has, hx, hxval⟩
  rcases rereads_operand hb .sign with ⟨bs, y, hbs, hy, hyval⟩
  refine ⟨_, _, has.joined hbs hsign, .times ht hx hy, fun K _ _ I => ?_⟩
  rcases ht with rfl | rfl <;> simp only [operation, Interpretation.value, hxval K I, hyval K I]

/-- What stands behind a root without brackets is atomic. -/
theorem level_of_isBareRadicand {x : Expr} (h : isBareRadicand x x.write.2 = true) :
    x.write.2 = .atom := by
  unfold isBareRadicand at h
  split at h
  · rename_i q
    rw [Bool.or_eq_true, beq_iff_eq, Bool.and_eq_true] at h
    rcases h with ⟨hneg, hwhole⟩ | h
    · have hnum : ¬q.num < 0 := by
        intro hlt
        rw [decide_eq_true hlt] at hneg
        exact absurd hneg Bool.false_ne_true
      simp only [write, writeRat, hwhole, if_true, hnum, if_false]
    · exact h
  · exact absurd h Bool.false_ne_true
  · exact absurd h Bool.false_ne_true
  · exact beq_iff_eq.mp h

theorem rereads_name {name : String} (h : IsIdentifier name) :
    Rereads.{u} (name.toList, .atom) (.var name) := by
  rcases h with ⟨⟨c, cs, hname, hc, hcs⟩, hpi, hsqrt, habs⟩
  have hspells := Token.spells_name hc hcs
  rw [← hname] at hspells
  have hof : Token.ofName name.toList = .ident name := by
    have hne : name.toList ≠ ['p', 'i'] := fun h => hpi (String.toList_inj.mp h)
    rw [Token.ofName, if_neg hne, String.ofList_toList]
  have hfun : Postfix.isFunctionName name = false := by
    have hs : name.toList ≠ ['s', 'q', 'r', 't'] := fun h => hsqrt (String.toList_inj.mp h)
    have ha : name.toList ≠ ['a', 'b', 's'] := fun h => habs (String.toList_inj.mp h)
    simp only [Postfix.isFunctionName, functionNames, List.contains_cons, List.contains_nil,
      Bool.or_false, Bool.or_eq_false_iff, beq_eq_false_iff_ne]
    exact ⟨hs, ha⟩
  rw [hof] at hspells
  exact ⟨_, _, hspells, .named hfun, .refl _⟩

/-- The text of a tree reads back at its level with the value of the tree. -/
theorem rereads_write (e : Expr) (h : ∀ name ∈ e.names, IsIdentifier name) :
    Rereads.{u} e.write e := by
  induction e with
  | rat q => exact rereads_rat q
  | pi => exact ⟨_, _, .sign rfl .nil, .pi, .refl _⟩
  | var name => exact rereads_name (h name List.mem_cons_self)
  | sqrt x ih =>
      rcases ih h with ⟨ts, y, hs, hy, hval⟩
      have hcall : Postfix.isFunctionName "sqrt" = true := by decide
      have hsqrt : SameValue.{u} (.call "sqrt" y) (.sqrt x) :=
        fun K _ _ I => congrArg I.sqrt (hval K I)
      simp only [write]
      -- A root without brackets takes in what is atomic, and nothing behind it.
      by_cases hbare : isBareRadicand x x.write.2 = true
      · rw [if_pos hbare]
        rw [level_of_isBareRadicand hbare] at hy
        exact ⟨_, _, .sign rfl hs, .called hcall hy, hsqrt⟩
      · have hlowest : Level.sum.rank ≤ x.write.2.rank := by cases x.write.2 <;> decide
        have hsum : Derives Level.sum.phrase ts y := derives_of_rank_le hy hlowest
        rcases rereads_bracketed hs hsum with ⟨hs', hy'⟩
        rw [if_neg hbare]
        exact ⟨_, _, .sign rfl hs', .called hcall hy', hsqrt⟩
  | abs x ih =>
      rcases ih h with ⟨ts, y, hs, hy, hval⟩
      have hlowest : Level.sum.rank ≤ x.write.2.rank := by cases x.write.2 <;> decide
      have hsum : Derives Level.sum.phrase ts y := derives_of_rank_le hy hlowest
      rcases rereads_bracketed hs hsum with ⟨hs', hy'⟩
      have hname : Spells ['a', 'b', 's'] [.ident "abs"] :=
        Token.spells_name (by decide) (Text.forall_of_all (by decide))
      refine ⟨_, _, hname.append hs' (Token.stops_cons _ rfl), .called (by decide) hy', ?_⟩
      exact fun K _ _ I => congrArg I.abs (hval K I)
  | pow a b iha ihb =>
      have hab := List.forall_mem_append.mp h
      rcases rereads_operand (iha hab.1) .atom with ⟨as, x, has, hx, hxval⟩
      rcases rereads_operand (ihb hab.2) .power with ⟨bs, y, hbs, hy, hyval⟩
      refine ⟨_, _, has.joined hbs rfl, .raised hx hy, fun K _ _ I => ?_⟩
      simp only [Interpretation.value, hxval K I, hyval K I]
  | add a b iha ihb =>
      have hab := List.forall_mem_append.mp h
      exact rereads_sum (iha hab.1) (ihb hab.2) rfl rfl (.inl ⟨rfl, rfl⟩)
  | sub a b iha ihb =>
      have hab := List.forall_mem_append.mp h
      rw [write]
      by_cases hzero : a.isZero = true
      · -- A difference from zero is written as a sign, and a sign is read as one.
        rw [if_pos hzero]
        rcases rereads_operand (ihb hab.2) .sign with ⟨bs, y, hbs, hy, hyval⟩
        rcases isZero_iff.mp hzero with rfl
        refine ⟨_, _, .sign rfl hbs, .signed (.negative hy), fun K _ _ I => ?_⟩
        simp only [Interpretation.value, hyval K I]
      · rw [if_neg hzero]
        exact rereads_sum (iha hab.1) (ihb hab.2) rfl rfl (.inr ⟨rfl, rfl⟩)
  | mul a b iha ihb =>
      have hab := List.forall_mem_append.mp h
      have hproduct := rereads_product (iha hab.1) (ihb hab.2)
        (show Token.ofChar? '*' = some .star from rfl) (.inl rfl)
      simp only [write]
      split
      · rename_i c hlevel
        refine rereads_scaled c ?_
        rw [← hlevel]
        exact ihb hab.2
      · exact hproduct
  | div a b iha ihb =>
      have hab := List.forall_mem_append.mp h
      exact rereads_product (iha hab.1) (ihb hab.2) rfl (.inr rfl)

/-- The text of a tree is accepted, by the tokens, the rearrangement and the
    tree builder with every bound that is deep enough, and the tree it is read
    as has the value of the tree it was written from. -/
theorem readable_reread (e : Expr) (h : ∀ name ∈ e.names, IsIdentifier name) :
    ∃ x, (∀ bound, x.depth ≤ bound →
        (Token.tokenize e.readable.toList >>= Postfix.ofTokens >>= ofPostfix bound) = .ok x) ∧
      ∀ (K : Type u) [Field K] [CharZero K] (I : Interpretation K), I.value x = I.value e := by
  rcases rereads_write.{u} e h with ⟨ts, x, hs, hx, hval⟩
  have hlowest : Level.sum.rank ≤ e.write.2.rank := by cases e.write.2 <;> decide
  have hsum : Derives Level.sum.phrase ts x := derives_of_rank_le hx hlowest
  have htokens : Token.tokenize e.readable.toList = .ok ts := by
    rw [readable, String.toList_ofList]
    exact Token.tokenize_of_spells hs
  refine ⟨x, fun bound hb => ?_, hval⟩
  rcases Postfix.ofTokens_of_derives hsum with ⟨row, hrow, hlists⟩
  rw [htokens, show (Except.ok ts >>= Postfix.ofTokens) = Postfix.ofTokens ts from rfl, hrow]
  exact Postfix.ofPostfix_postorder hlists hb

/-- A difference whose second operand is a negative fraction of a root. -/
def negativeFraction : Expr :=
  .sub (.var "x") (.mul (.rat (-3 / 2)) (.sqrt (.add (.var "y") (.rat 2))))

/-- The fraction gives up its sign, and the text still reads back. -/
theorem negativeFraction_reread :
    negativeFraction.readable = "x+3*√(y+2)/2" ∧
      ∃ x, (∀ bound, x.depth ≤ bound →
          (Token.tokenize negativeFraction.readable.toList >>= Postfix.ofTokens >>=
            ofPostfix bound) = .ok x) ∧
        ∀ (K : Type) [Field K] [CharZero K] (I : Interpretation K),
          I.value x = I.value negativeFraction := by
  refine ⟨by decide +kernel, readable_reread negativeFraction (fun name hname => ?_)⟩
  have hnames : name = "x" ∨ name = "y" := by simpa [negativeFraction, names] using hname
  rcases hnames with rfl | rfl
  · exact ⟨⟨'x', [], rfl, by decide, List.forall_mem_nil _⟩, by decide, by decide, by decide⟩
  · exact ⟨⟨'y', [], rfl, by decide, List.forall_mem_nil _⟩, by decide, by decide, by decide⟩

end Expr

end ExactCalc
