import ExactCalc.Decimal
import ExactCalc.Proofs.Numeral
import Mathlib.Data.List.DropRight
import Mathlib.Data.Rat.Cast.Order
import Mathlib.Tactic.FieldSimp
import Mathlib.Tactic.Positivity

/-!
# The Text of a Scaled Integer

The decimal text of a scaled integer denotes that integer divided by its scale if
the number of places is a count, and is written in the one way a number of so many
places can be.

The text is made in two steps, a point put into the digits and then the zeros at
the end taken off, and neither step says much on its own. `Parts` says what comes
out: the sign, the digits in front of the point and those behind it. Padding the
digits behind the point to the number of places makes the two rows together the
digits of one number, so that its value is there for the reading; taking a zero
off the end divides the digits and the scale by the same ten.

That number is the integer where the scale has as many places as the text. The scale
of a number of places that is no count has fewer, and what it leaves of the integer
then stands too far behind the point.

Zero has no sign, since the sign is that of the integer and not that of the text.

## Main definitions

* `Decimal.Parts`, `Decimal.Parts.text`: A decimal text taken apart.
* `Decimal.Parts.Canonical`, `Decimal.Canonical`: The one way to write a number.
* `Decimal.magnitude`, `Decimal.denoted`: The number that a text denotes.
* `Decimal.padded`, `Decimal.parts`: What a scaled integer is written as.

## Theorems

* `denoted_text`: The number of a text taken apart.
* `trim_ofScaled`: The two steps together.
* `value_dropTrailing`: Zeros at the end leave the number as it is.
* `canonical_trim`, `denoted_trim`, `denoted_trim_of_lt`: The text of a scaled integer.
-/

namespace ExactCalc

namespace Decimal

/-- A decimal text taken apart: whether a minus sign stands in front, the digits
    in front of the point and those behind it. -/
structure Parts where
  negative : Bool
  whole : List Char
  fraction : List Char
  deriving DecidableEq, Repr

/-- The sign in front. -/
def Parts.sign (p : Parts) : List Char := if p.negative then ['-'] else []

/-- The text of the parts. A point stands only in front of digits. -/
def Parts.text (p : Parts) : List Char :=
  p.sign ++ (p.whole ++ if p.fraction = [] then [] else '.' :: p.fraction)

/-- The parts are digits, with no zero too many at either end, with no more than
    the given places, and with no sign in front of zero. -/
structure Parts.Canonical (places : Nat) (p : Parts) : Prop where
  whole_accepted : ∀ c ∈ p.whole, Radix.dec.accepts c = true
  fraction_accepted : ∀ c ∈ p.fraction, Radix.dec.accepts c = true
  whole_ne_nil : p.whole ≠ []
  no_leading_zero : p.whole.head? = some '0' → p.whole = ['0']
  no_trailing_zero : p.fraction.getLast? ≠ some '0'
  length_le : p.fraction.length ≤ places
  no_negative_zero : p.negative = true → p.whole = ['0'] → p.fraction ≠ []

/-- A text that writes a number with at most the given places in the one way
    there is. -/
def Canonical (places : Nat) (cs : List Char) : Prop :=
  ∃ p : Parts, p.Canonical places ∧ cs = p.text

/-- The number that a text without a sign denotes: all its digits, divided by ten
    for each that stands behind the point. -/
def magnitude (cs : List Char) : Rat :=
  let whole := cs.takeWhile (· != '.')
  let fraction := (cs.dropWhile (· != '.')).tail
  Numeral.value 10 (whole ++ fraction) / 10 ^ fraction.length

/-- The number that a decimal text denotes. -/
def denoted : List Char → Rat
  | '-' :: cs => -magnitude cs
  | cs => magnitude cs

/-- The digits of a number with zeros in front, as many as there are places. -/
def padded (places n : Nat) : List Char :=
  if places = 0 then []
  else
    List.replicate (places - (Numeral.digits .dec n).length) '0' ++ Numeral.digits .dec n

/-- What a scaled integer is written as. -/
def parts (n : Int) (places : Nat) : Parts where
  negative := n < 0
  whole := Numeral.digits .dec (n.natAbs / scale places)
  fraction := dropTrailing '0' (padded places (n.natAbs % scale places))

section Trimming

variable {c d : Char} {as cs : List Char}

theorem dropTrailing_eq (c : Char) (cs : List Char) : dropTrailing c cs = cs.rdropWhile (· == c) :=
  rfl

theorem dropTrailing_eq_self (h : cs.getLast? ≠ some c) : dropTrailing c cs = cs := by
  rw [dropTrailing_eq, List.rdropWhile_eq_self_iff]
  intro hne hlast
  rw [beq_iff_eq] at hlast
  exact h (by rw [List.getLast?_eq_some_getLast hne, hlast])

theorem getLast?_dropTrailing (c : Char) (cs : List Char) :
    (dropTrailing c cs).getLast? ≠ some c := by
  rw [dropTrailing_eq]
  intro h
  by_cases hne : cs.rdropWhile (· == c) = []
  · rw [hne, List.getLast?_nil] at h
    cases h
  · rw [List.getLast?_eq_some_getLast hne, Option.some.injEq] at h
    exact List.rdropWhile_last_not _ _ hne (beq_iff_eq.mpr h)

theorem mem_of_mem_dropTrailing (h : d ∈ dropTrailing c cs) : d ∈ cs :=
  (List.rdropWhile_prefix (· == c) cs).subset h

theorem length_dropTrailing_le (c : Char) (cs : List Char) :
    (dropTrailing c cs).length ≤ cs.length :=
  (List.rdropWhile_prefix (· == c) cs).length_le

@[simp]
theorem dropTrailing_concat (cs : List Char) : dropTrailing c (cs ++ [c]) = dropTrailing c cs := by
  simp only [dropTrailing_eq]
  exact List.rdropWhile_concat_pos _ _ _ (beq_self_eq_true c)

/-- A character other than the one dropped keeps what stands in front of it. -/
theorem dropTrailing_append_cons (h : d ≠ c) :
    dropTrailing c (as ++ d :: cs) = as ++ d :: dropTrailing c cs := by
  induction cs using List.reverseRecOn with
  | nil => exact dropTrailing_eq_self (by rwa [List.getLast?_concat, ne_eq, Option.some.injEq])
  | append_singleton cs e ih =>
      rw [← List.cons_append, ← List.append_assoc]
      by_cases he : e = c
      · rw [he, dropTrailing_concat, ih, dropTrailing_concat]
      · have hlast : ∀ bs : List Char, (bs ++ [e]).getLast? ≠ some c := by
          intro bs
          rw [List.getLast?_concat, ne_eq, Option.some.injEq]
          exact he
        rw [dropTrailing_eq_self (hlast _), dropTrailing_eq_self (hlast _), List.append_assoc,
          List.cons_append]

end Trimming

section Reading

theorem accepted_ne {c d : Char} (h : Radix.dec.accepts c = true)
    (hd : Radix.dec.accepts d = false) : c ≠ d := by
  rintro rfl
  rw [h] at hd
  exact absurd hd (by decide)

/-- The number of the digits around a point. -/
theorem magnitude_append {whole : List Char} (fraction : List Char)
    (hwhole : ∀ c ∈ whole, Radix.dec.accepts c = true) :
    magnitude (whole ++ if fraction = [] then [] else '.' :: fraction) =
      Numeral.value 10 (whole ++ fraction) / 10 ^ fraction.length := by
  have hpoint : ∀ c ∈ whole, (c != '.') = true := by
    intro c hc
    rw [bne_iff_ne]
    exact accepted_ne (hwhole c hc) (by decide)
  unfold magnitude
  simp only
  rw [List.takeWhile_append_of_pos hpoint, List.dropWhile_append_of_pos hpoint]
  by_cases hnil : fraction = []
  · rw [if_pos hnil, hnil, List.takeWhile_nil, List.dropWhile_nil, List.append_nil, List.tail_nil,
      List.append_nil]
  · rw [if_neg hnil, List.takeWhile_cons_of_neg (by decide), List.dropWhile_cons_of_neg (by decide),
      List.append_nil, List.tail_cons]

/-- The number of a text taken apart. -/
theorem denoted_text {p : Parts} {places : Nat} (h : p.Canonical places) :
    denoted p.text = (if p.negative then -1 else 1) *
      (Numeral.value 10 (p.whole ++ p.fraction) / 10 ^ p.fraction.length) := by
  have hsize := magnitude_append p.fraction h.whole_accepted
  rw [Parts.text, Parts.sign, ← hsize]
  cases p.negative with
  | true => exact (neg_one_mul _).symm
  | false =>
      simp only [Bool.false_eq_true, if_false, one_mul, List.nil_append]
      -- The first character is a digit, so no sign is read.
      rcases hw : p.whole with _ | ⟨c, cs⟩
      · exact absurd hw h.whole_ne_nil
      have hc : c ≠ '-' :=
        accepted_ne (h.whole_accepted c (hw ▸ List.mem_cons_self)) (by decide)
      rw [List.cons_append, denoted]
      rintro ds hds
      exact hc (List.cons.inj hds).1

theorem value_dropTrailing (whole fraction : List Char) :
    (Numeral.value 10 (whole ++ dropTrailing '0' fraction) : Rat) /
        10 ^ (dropTrailing '0' fraction).length =
      Numeral.value 10 (whole ++ fraction) / 10 ^ fraction.length := by
  -- The induction takes the digits off the end, as the trimming does.
  induction fraction using List.reverseRecOn with
  | nil => rfl
  | append_singleton fraction c ih =>
      by_cases hc : c = '0'
      · have hzero : Numeral.digitValue '0' = 0 := by decide
        rw [hc, dropTrailing_concat, ih, ← List.append_assoc, Numeral.value_append_singleton, hzero,
          Nat.add_zero, List.length_append, List.length_singleton, pow_succ, Nat.cast_mul,
          Nat.cast_ofNat]
        exact (mul_div_mul_right _ _ (by norm_num)).symm
      · rw [dropTrailing_eq_self]
        rw [List.getLast?_concat, ne_eq, Option.some.injEq]
        exact hc

/-- A text with a point, without the point if nothing stands behind it. -/
theorem dropTrailing_point {p : Parts} {places : Nat} (h : p.Canonical places) :
    dropTrailing '.' (p.sign ++ p.whole ++ '.' :: p.fraction) = p.text := by
  -- What stands in front of the point ends in a digit, and so does what stands behind.
  have hdigits : ∀ cs : List Char, (∀ c ∈ cs, Radix.dec.accepts c = true) →
      cs.getLast? ≠ some '.' := fun cs hcs hlast =>
    accepted_ne (hcs _ (List.mem_of_getLast? hlast)) (by decide) rfl
  rw [Parts.text]
  by_cases hnil : p.fraction = []
  · rw [if_pos hnil, hnil, List.append_nil, dropTrailing_concat]
    refine dropTrailing_eq_self ?_
    rw [List.getLast?_append_of_ne_nil _ h.whole_ne_nil]
    exact hdigits _ h.whole_accepted
  · rw [if_neg hnil, ← List.append_assoc]
    refine dropTrailing_eq_self ?_
    rw [List.getLast?_append_of_ne_nil _ (List.cons_ne_nil _ _),
      ← List.singleton_append, List.getLast?_append_of_ne_nil _ hnil]
    exact hdigits _ h.fraction_accepted

/-- Zero is not written with a sign. -/
theorem text_ne_negative_zero {p : Parts} {places : Nat} (h : p.Canonical places) :
    p.text ≠ ['-', '0'] := by
  intro htext
  rw [Parts.text, Parts.sign] at htext
  rcases hw : p.whole with _ | ⟨c, cs⟩
  · exact h.whole_ne_nil hw
  rw [hw] at htext
  cases hneg : p.negative with
  | true =>
      rw [hneg, if_pos rfl, List.singleton_append, List.cons.injEq, List.cons_append,
        List.cons.injEq, List.append_eq_nil_iff] at htext
      rcases htext with ⟨-, rfl, rfl, hnil⟩
      refine h.no_negative_zero hneg hw ?_
      by_contra hne
      rw [if_neg hne] at hnil
      exact List.cons_ne_nil _ _ hnil
  | false =>
      rw [hneg, if_neg Bool.false_ne_true, List.nil_append, List.cons_append, List.cons.injEq]
        at htext
      exact accepted_ne (h.whole_accepted c (hw ▸ List.mem_cons_self)) (by decide) htext.1

end Reading

section Writing

variable (n : Int) (places : Nat)

theorem scale_pos : 0 < scale places := Nat.pow_pos (by decide)

theorem scale_le : scale places ≤ 10 ^ places :=
  Nat.pow_le_pow_right (by decide) (Word.count_le places)

theorem scale_of_lt {places : Nat} (h : places < Word.counts) : scale places = 10 ^ places := by
  rw [scale, Word.count_of_lt h]
  rfl

@[simp] theorem scale_count : scale (Word.count places) = scale places := by
  rw [scale, scale, Word.count_count]

theorem padded_accepted (m : Nat) : ∀ c ∈ padded places m, Radix.dec.accepts c = true := by
  intro c hc
  unfold padded at hc
  by_cases h0 : places = 0
  · rw [if_pos h0] at hc
    exact absurd hc List.not_mem_nil
  · rw [if_neg h0, List.mem_append] at hc
    rcases hc with hc | hc
    · rw [List.eq_of_mem_replicate hc]
      decide
    · exact Numeral.accepts_of_mem_digits .dec m c hc

theorem length_padded {m : Nat} (hm : m < scale places) : (padded places m).length = places := by
  unfold padded
  by_cases h0 : places = 0
  · rw [if_pos h0, h0, List.length_nil]
  · rw [if_neg h0, List.length_append, List.length_replicate]
    have hle := Numeral.length_digits_le .dec (Nat.pos_of_ne_zero h0)
      (hm.trans_le (scale_le places))
    omega

/-- The digits behind the point are padded to the number of places, so those in
    front of it are worth as many tens. -/
theorem value_padded :
    Numeral.value 10 (Numeral.digits .dec (n.natAbs / scale places) ++
      padded places (n.natAbs % scale places)) =
      n.natAbs / scale places * 10 ^ places + n.natAbs % scale places := by
  have hlt : n.natAbs % scale places < scale places := Nat.mod_lt _ (scale_pos places)
  have hvalue : Numeral.value 10 (padded places (n.natAbs % scale places)) =
      n.natAbs % scale places := by
    by_cases h0 : places = 0
    · rw [padded, if_pos h0, h0, show scale 0 = 1 from rfl, Nat.mod_one]
      rfl
    · rw [padded, if_neg h0, Numeral.value_zeros_append]
      exact Numeral.value_digits .dec _
  have hwhole : Numeral.value 10 (Numeral.digits .dec (n.natAbs / scale places)) =
      n.natAbs / scale places := Numeral.value_digits .dec _
  rw [Numeral.value_append, length_padded places hlt, hwhole, hvalue]

theorem value_parts :
    (Numeral.value 10 ((parts n places).whole ++ (parts n places).fraction) : Rat) /
        10 ^ (parts n places).fraction.length =
      (n.natAbs / scale places : Nat) + (n.natAbs % scale places : Nat) / 10 ^ places := by
  have hlt : n.natAbs % scale places < scale places := Nat.mod_lt _ (scale_pos places)
  rw [parts, value_dropTrailing, value_padded, length_padded places hlt, Nat.cast_add, Nat.cast_mul,
    Nat.cast_pow, Nat.cast_ofNat, add_div, mul_div_cancel_right₀ _ (pow_ne_zero _ (by norm_num))]

/-- A scaled integer is written in the one way there is. -/
theorem canonical_parts : (parts n places).Canonical places where
  whole_accepted := Numeral.accepts_of_mem_digits .dec _
  fraction_accepted c hc := padded_accepted places _ c (mem_of_mem_dropTrailing hc)
  whole_ne_nil := Numeral.digits_ne_nil .dec _
  no_leading_zero hzero := by
    rcases Nat.eq_zero_or_pos (n.natAbs / scale places) with h | h
    · show Numeral.digits .dec (n.natAbs / scale places) = ['0']
      rw [h]
      decide
    · exact absurd hzero (Numeral.head?_digits .dec h)
  no_trailing_zero := getLast?_dropTrailing '0' _
  length_le := by
    have hlt : n.natAbs % scale places < scale places := Nat.mod_lt _ (scale_pos places)
    exact (length_dropTrailing_le '0' _).trans (length_padded places hlt).le
  no_negative_zero hneg hwhole hfraction := by
    -- Without any digit but zero the text would denote zero, which has no sign.
    have hvalue := value_parts n places
    rw [hwhole, hfraction] at hvalue
    have hzero : ((n.natAbs / scale places : Nat) : Rat) +
        (n.natAbs % scale places : Nat) / 10 ^ places = 0 := hvalue.symm.trans (by decide +kernel)
    rw [add_eq_zero_iff_of_nonneg (Nat.cast_nonneg _) (by positivity), Nat.cast_eq_zero,
      div_eq_zero_iff, or_iff_left (pow_ne_zero _ (by norm_num)), Nat.cast_eq_zero] at hzero
    have hmodulus := Nat.div_add_mod' n.natAbs (scale places)
    rw [hzero.1, hzero.2, zero_mul] at hmodulus
    have hneg : n < 0 := of_decide_eq_true hneg
    omega

/-- The point put into the digits of a scaled integer, and the zeros at the end
    taken off. -/
theorem trim_ofScaled : trim (ofScaled n places) = (parts n places).text := by
  have hcanonical := canonical_parts n places
  have hsign : (if n < 0 then ['-'] else []) = (parts n places).sign := by
    simp only [Parts.sign, parts, decide_eq_true_eq]
  have hwhole : (n.natAbs / scale places).repr.toList = (parts n places).whole :=
    Numeral.toList_repr _
  by_cases h0 : places = 0
  · have hfraction : (parts n places).fraction = [] := by
      simp only [parts, padded, h0, if_true]
      rfl
    have htext : ofScaled n places = (parts n places).text := by
      rw [ofScaled, if_pos h0, hsign, hwhole, Parts.text, if_pos hfraction, List.append_nil]
    rw [htext]
    refine if_neg ?_
    rw [List.contains_iff_mem, Parts.text, if_pos hfraction, List.append_nil, List.mem_append,
      not_or]
    refine ⟨?_, fun hmem => accepted_ne (hcanonical.whole_accepted _ hmem) (by decide) rfl⟩
    rw [Parts.sign]
    split <;> decide
  · have htext : ofScaled n places = (parts n places).sign ++ (parts n places).whole ++
        '.' :: padded places (n.natAbs % scale places) := by
      rw [ofScaled, if_neg h0, hsign, hwhole, Numeral.toList_repr, padded, if_neg h0]
    have hpoint : (ofScaled n places).contains '.' = true := by
      rw [htext, List.contains_iff_mem]
      exact List.mem_append_right _ List.mem_cons_self
    -- The zeros at the end stand behind the point, which keeps what is in front of it.
    have hzeros : dropTrailing '0' (ofScaled n places) =
        (parts n places).sign ++ (parts n places).whole ++ '.' :: (parts n places).fraction := by
      rw [htext, dropTrailing_append_cons (by decide)]
      rfl
    rw [trim, if_pos hpoint, hzeros, dropTrailing_point hcanonical]
    exact if_neg (text_ne_negative_zero hcanonical)

theorem canonical_trim : Canonical places (trim (ofScaled n places)) :=
  ⟨parts n places, canonical_parts n places, trim_ofScaled n places⟩

/-- The text of a scaled integer denotes the whole part of it at its scale, and
    what is left as so many places. -/
theorem denoted_trim : denoted (trim (ofScaled n places)) =
    (n.tdiv (scale places) : Int) + (n.tmod (scale places) : Int) / 10 ^ places := by
  rw [trim_ofScaled, denoted_text (canonical_parts n places), value_parts]
  -- Division towards zero treats both signs alike.
  rcases lt_or_ge n 0 with hn | hn
  · have hneg : (parts n places).negative = true := decide_eq_true hn
    rcases Int.eq_ofNat_of_zero_le (neg_nonneg.mpr hn.le) with ⟨m, hm⟩
    have hminus : n = -(m : Int) := by omega
    rw [if_pos hneg, hminus, Int.natAbs_neg, Int.natAbs_natCast, Int.neg_tdiv, Int.neg_tmod,
      ← Int.ofNat_tdiv, ← Int.ofNat_tmod, Int.cast_neg, Int.cast_neg, Int.cast_natCast,
      Int.cast_natCast]
    ring
  · have hneg : ¬(parts n places).negative = true := fun h =>
      not_lt.mpr hn (of_decide_eq_true h)
    rcases Int.eq_ofNat_of_zero_le hn with ⟨m, rfl⟩
    rw [if_neg hneg, one_mul, Int.natAbs_natCast, ← Int.ofNat_tdiv, ← Int.ofNat_tmod,
      Int.cast_natCast, Int.cast_natCast]

/-- With as many places as the scale has, the text denotes the integer divided by its
    scale. -/
theorem denoted_trim_of_lt {places : Nat} (h : places < Word.counts) :
    denoted (trim (ofScaled n places)) = n / 10 ^ places := by
  have hsplit : n = n.tdiv (scale places) * (10 ^ places : Nat) + n.tmod (scale places) := by
    rw [← scale_of_lt h, Int.mul_comm]
    exact (Int.mul_tdiv_add_tmod n (scale places)).symm
  rw [denoted_trim]
  nth_rewrite 3 [hsplit]
  rw [Int.cast_add, Int.cast_mul, Int.cast_natCast, Nat.cast_pow, Nat.cast_ofNat, add_div,
    mul_div_cancel_right₀ _ (pow_ne_zero _ (by norm_num))]

end Writing

end Decimal

end ExactCalc
