import ExactCalc.Proofs.Numeral.Conversion
import ExactCalc.Proofs.Simplify.Arithmetic
import ExactCalc.Proofs.Token.Number

/-!
# The Value of a Written Number

A number that is written out is one token, and the token carries the number exactly.

A number is written with its base in front, then a mantissa, and in a base other than
sixteen perhaps a power of ten. Two things are counted in different bases: a place
behind the point divides by the base of the digits, and the power is one of ten in
every base. The reader counts both without a second look at the text. It keeps the
digits as one whole number, and beside it how many of them stand behind the point, so
that what it has after a part of the mantissa is the whole number and the count of
that part. `read_mantissa` says so of a mantissa in front of any text, and both the
value and the first digit that the base refuses follow from it, since the reader stops
at that digit with everything before it read.

## Main definitions

* `Announced`: How the base of a number is announced.
* `MantissaText`: A mantissa by its digits in front of the point and behind it.
* `PowerText`: A power of ten, or none.

## Theorems

* `read_mantissa`: What has been read after a mantissa.
* `readExponent_signed`, `scaledBy_power`: The power of ten that a text denotes.
* `readNumber_written`: The value of a number, or a power that is too large.
* `readNumber_outside`: The first digit that the base refuses is reported.
* `tokenize_number`: A number that is written out is one token.
-/

namespace ExactCalc

namespace Token

/-- How the base of a number is announced: by its marker, or not at all if it is
    ten. -/
inductive Announced : Radix → List Char → Prop where
  | marked (r : Radix) : Announced r r.marker
  | plain : Announced .dec []

/-- A mantissa by its digits in front of the point and behind it. The point may be
    left out if no digit follows. -/
inductive MantissaText : List Char → List Char → List Char → Prop where
  | pointed (whole fraction : List Char) : MantissaText whole fraction (whole ++ '.' :: fraction)
  | whole (whole : List Char) : MantissaText whole [] whole

/-- A power of ten and its exponent, or no power at all. Base sixteen has none, since
    the letter is a digit there. -/
inductive PowerText (r : Radix) : List Char → Int → Prop where
  | nothing : PowerText r [] 0
  | raised {sign es : List Char} (hr : r ≠ .hex) (hsign : sign = [] ∨ sign = ['+'])
      (hne : es ≠ []) (hes : ∀ c ∈ es, c.isDigit = true) :
      PowerText r (exponentLetter :: (sign ++ es)) (Numeral.denoted .dec es)
  | lowered {es : List Char} (hr : r ≠ .hex) (hne : es ≠ []) (hes : ∀ c ∈ es, c.isDigit = true) :
      PowerText r (exponentLetter :: '-' :: es) (-(Numeral.denoted .dec es : Int))

section Mantissas

variable {r : Radix} {whole fraction mantissa : List Char} {c : Char}

theorem inMantissa_of_isDigitCandidate (h : isDigitCandidate r c = true) :
    inMantissa r c = true := by
  rw [inMantissa, h, Bool.or_true]

/-- A mantissa holds its digits, and besides them a point at most. -/
theorem MantissaText.mem (h : MantissaText whole fraction mantissa) :
    ∀ c ∈ mantissa, c = '.' ∨ c ∈ whole ++ fraction := by
  intro c hc
  cases h with
  | pointed =>
      rw [List.mem_append, List.mem_cons] at hc
      rw [List.mem_append]
      rcases hc with hc | hc | hc
      · exact .inr (.inl hc)
      · exact .inl hc
      · exact .inr (.inr hc)
  | whole => exact .inr (List.mem_append_left _ hc)

/-- A mantissa with a digit is not empty. -/
theorem MantissaText.ne_nil (h : MantissaText whole fraction mantissa)
    (hne : whole ++ fraction ≠ []) : mantissa ≠ [] := by
  cases h with
  | pointed => exact List.append_ne_nil_of_right_ne_nil whole (List.cons_ne_nil _ _)
  | whole => rwa [List.append_nil] at hne

/-- After a mantissa in front of any text, its digits have been read as one whole
    number, and those behind the point have been counted. -/
theorem read_mantissa (h : MantissaText whole fraction mantissa)
    (hdigits : ∀ c ∈ whole ++ fraction, r.accepts c = true) (pos : Nat) :
    ∃ places, places.getD 0 = fraction.length ∧ ∀ rest,
      Mantissa.read r pos .empty (mantissa ++ rest) =
        Mantissa.read r (pos + mantissa.length)
          ⟨Numeral.value r.size (whole ++ fraction), (whole ++ fraction).length, places⟩ rest := by
  have hwhole : ∀ c ∈ whole, r.accepts c = true := fun c hc => hdigits c (List.mem_append_left _ hc)
  cases h with
  | whole =>
      refine ⟨none, rfl, fun rest => ?_⟩
      rw [List.append_nil, read_digits_append hwhole, Numeral.value, Mantissa.empty, Nat.zero_add,
        Option.map_none]
  | pointed =>
      refine ⟨some fraction.length, rfl, fun rest => ?_⟩
      have hfraction : ∀ c ∈ fraction, r.accepts c = true :=
        fun c hc => hdigits c (List.mem_append_right _ hc)
      rw [List.append_assoc, List.cons_append, read_digits_append hwhole, Mantissa.read, if_pos rfl,
        Mantissa.empty, Option.map_none, Option.isSome_none, if_neg Bool.false_ne_true,
        read_digits_append hfraction]
      simp only [Numeral.value, List.foldl_append, List.length_append, List.length_cons,
        Option.map_some, Nat.zero_add]
      rw [show pos + whole.length + 1 + fraction.length =
        pos + (whole.length + (fraction.length + 1)) by omega]

/-- A mantissa that has been read denotes its digits as a whole number, divided by
    the base once for every place behind the point. -/
theorem toRat_eq (r : Radix) (value count : Nat) (places : Option Nat) :
    Mantissa.toRat r ⟨value, count, places⟩ = (value : ℚ) / (r.size : ℚ) ^ places.getD 0 := by
  rw [Mantissa.toRat, Rat.mkRat_eq_div]
  simp only [Nat.pow_eq, Nat.cast_pow, Int.cast_natCast]

end Mantissas

section Powers

variable {r : Radix} {power : List Char} {k : Int}

/-- A text that begins with no sign has none split off. -/
theorem splitSign_of_isDigit {es : List Char} (hes : ∀ c ∈ es, c.isDigit = true) :
    splitSign es = (false, 0, es) := by
  unfold splitSign
  split
  · exact absurd (hes '-' List.mem_cons_self) (by decide)
  · exact absurd (hes '+' List.mem_cons_self) (by decide)
  · rfl

/-- Digits behind a sign or none are a power of ten, unless it is too large. -/
theorem readExponent_signed {cs es : List Char} {negative : Bool} {signs : Nat}
    (hsplit : splitSign cs = (negative, signs, es)) (hne : es ≠ [])
    (hes : ∀ c ∈ es, c.isDigit = true) (pos : Nat) :
    readExponent pos cs =
      if Numeral.denoted .dec es ≤ largestExponent then
        .ok (if negative then -(Numeral.denoted .dec es : Int) else Numeral.denoted .dec es,
          signs + es.length)
      else .error .tooComplex := by
  have htake : es.takeWhile Char.isDigit = es := List.takeWhile_eq_self_iff.mpr hes
  have hempty : es.isEmpty = false := by
    rw [← Bool.not_eq_true, List.isEmpty_iff]
    exact hne
  have hvalue : Numeral.value 10 es = Numeral.denoted .dec es := Numeral.value_eq_denoted .dec es
  rw [readExponent_eq, hsplit]
  simp only [htake, powerOf, hempty, Bool.false_eq_true, if_false, hvalue]

/-- The power of ten behind a mantissa, by its exponent. -/
theorem scaledBy_power (h : PowerText r power k) (pos : Nat) (value : ℚ) (length : Nat) :
    scaledBy r pos value length power =
      if k.natAbs ≤ 10000 then .ok (value * 10 ^ k, length + power.length)
      else .error .tooComplex := by
  cases h with
  | nothing =>
      rw [scaledBy, Int.natAbs_zero, if_pos (Nat.zero_le _), zpow_zero, mul_one, List.length_nil,
        Nat.add_zero]
  | @raised sign es hr hsign hne hes =>
      have hsplit : splitSign (sign ++ es) = (false, sign.length, es) := by
        rcases hsign with rfl | rfl
        · exact splitSign_of_isDigit hes
        · rfl
      rw [scaledBy, if_pos ⟨hr, rfl⟩, readExponent_signed hsplit hne hes, Int.natAbs_natCast,
        show largestExponent = 10000 from rfl]
      by_cases hle : Numeral.denoted .dec es ≤ 10000
      · rw [if_pos hle, if_pos hle]
        simp only [Except.map, Bool.false_eq_true, if_false, Expr.powInt_eq_zpow, List.length_cons,
          List.length_append]
        rw [show length + 1 + (sign.length + es.length) = length + (sign.length + es.length + 1) by
          omega]
      · rw [if_neg hle, if_neg hle, Except.map]
  | @lowered es hr hne hes =>
      have hsplit : splitSign ('-' :: es) = (true, 1, es) := rfl
      rw [scaledBy, if_pos ⟨hr, rfl⟩, readExponent_signed hsplit hne hes, Int.natAbs_neg,
        Int.natAbs_natCast, show largestExponent = 10000 from rfl]
      by_cases hle : Numeral.denoted .dec es ≤ 10000
      · rw [if_pos hle, if_pos hle]
        simp only [Except.map, if_true, Expr.powInt_eq_zpow, List.length_cons]
        rw [show length + 1 + (1 + es.length) = length + (es.length + 1 + 1) by omega]
      · rw [if_neg hle, if_neg hle, Except.map]

end Powers

section Numbers

variable {r : Radix} {front whole fraction mantissa power : List Char} {k : Int} {c : Char}

/-- A mantissa runs through all of its characters. -/
theorem takeWhile_mantissa (h : MantissaText whole fraction mantissa)
    (hdigits : ∀ c ∈ whole ++ fraction, isDigitCandidate r c = true) (rest : List Char) :
    (mantissa ++ rest).takeWhile (inMantissa r) = mantissa ++ rest.takeWhile (inMantissa r) := by
  refine List.takeWhile_append_of_pos (fun c hc => ?_)
  rcases h.mem c hc with rfl | hc
  · rfl
  · exact inMantissa_of_isDigitCandidate (hdigits c hc)

/-- No power of ten belongs to the mantissa before it. -/
theorem PowerText.not_inMantissa (h : PowerText r power k) :
    ∀ c ∈ power.head?, inMantissa r c = false := by
  have hletter : r ≠ .hex → inMantissa r exponentLetter = false := by
    intro hr
    cases r with
    | hex => exact absurd rfl hr
    | bin | oct | dec => decide
  intro c hc
  cases h with
  | nothing => exact absurd hc (Option.not_mem_none c)
  | raised hr | lowered hr =>
      rw [List.head?_cons, Option.mem_some_iff] at hc
      exact hc ▸ hletter hr

/-- A number that is written out has the value of its digits, divided by the base for
    every place behind the point, times its power of ten. -/
theorem readNumber_written (h : MantissaText whole fraction mantissa)
    (hne : whole ++ fraction ≠ []) (hdigits : ∀ c ∈ whole ++ fraction, r.accepts c = true)
    (hpower : PowerText r power k) (pos : Nat) :
    readNumber r pos (mantissa ++ power) =
      if k.natAbs ≤ 10000 then
        .ok (Numeral.denoted r (whole ++ fraction) / (r.size : ℚ) ^ fraction.length * 10 ^ k,
          mantissa.length + power.length)
      else .error .tooComplex := by
  have hrun : (mantissa ++ power).takeWhile (inMantissa r) = mantissa := by
    have hnone := Text.takeWhile_of_stops (w := []) (fun c hc => absurd hc List.not_mem_nil)
      hpower.not_inMantissa
    rw [List.nil_append] at hnone
    rw [takeWhile_mantissa h (fun c hc => isDigitCandidate_of_accepts (hdigits c hc)), hnone,
      List.append_nil]
  rcases read_mantissa h hdigits pos with ⟨places, hplaces, hread⟩
  have hend := hread []
  rw [List.append_nil, Mantissa.read] at hend
  have hcount : (whole ++ fraction).length ≠ 0 := fun h => hne (List.length_eq_zero_iff.mp h)
  rw [readNumber_eq, show (fun c => c == '.' || isDigitCandidate r c) = inMantissa r from rfl, hrun,
    hend, List.drop_left]
  simp only [hcount, if_false]
  rw [toRat_eq, hplaces, scaledBy_power hpower, Numeral.value_eq_denoted]

/-- In front of the first digit that the base refuses stands a mantissa as well. -/
theorem MantissaText.before (h : MantissaText whole fraction mantissa)
    (hfind : (whole ++ fraction).find? (!r.accepts ·) = some c) :
    ∃ whole' fraction' front back, MantissaText whole' fraction' front ∧
      (∀ d ∈ whole' ++ fraction', r.accepts d = true) ∧ mantissa = front ++ c :: back := by
  rcases List.find?_eq_some_iff_append.mp hfind with ⟨-, as, bs, heq, has⟩
  have haccepts : ∀ d ∈ as, r.accepts d = true := by
    intro d hd
    have hd' := has d hd
    rwa [Bool.not_not] at hd'
  rcases List.append_eq_append_iff.mp heq with ⟨ds, rfl, hfraction⟩ | ⟨ds, hwhole, hds⟩
  · -- The digit stands behind the point, and so there is one.
    cases h with
    | whole =>
        exact absurd hfraction
          (List.append_ne_nil_of_right_ne_nil ds (List.cons_ne_nil c bs)).symm
    | pointed =>
        refine ⟨whole, ds, whole ++ '.' :: ds, bs, .pointed whole ds, haccepts, ?_⟩
        rw [hfraction, List.append_assoc, List.cons_append]
  · rcases ds with _ | ⟨d, ds⟩
    · rw [List.append_nil] at hwhole
      rw [List.nil_append] at hds
      cases h with
      | whole => exact absurd hds (List.cons_ne_nil c bs)
      | pointed =>
          refine ⟨whole, [], whole ++ ['.'], bs, .pointed whole [], ?_, ?_⟩
          · rwa [List.append_nil, hwhole]
          · rw [← hds, List.append_assoc, List.singleton_append]
    · rw [List.cons_append, List.cons.injEq] at hds
      rw [← hds.1] at hwhole
      have hfront : ∀ d ∈ as ++ [], r.accepts d = true := by rwa [List.append_nil]
      cases h with
      | whole => exact ⟨as, [], as, ds, .whole as, hfront, hwhole⟩
      | pointed =>
          refine ⟨as, [], as, ds ++ '.' :: fraction, .whole as, hfront, ?_⟩
          rw [hwhole, List.append_assoc, List.cons_append]

/-- The first digit that the base refuses is reported, whatever follows the
    mantissa. -/
theorem readNumber_outside (h : MantissaText whole fraction mantissa)
    (hdigits : ∀ d ∈ whole ++ fraction, isDigitCandidate r d = true)
    (hfind : (whole ++ fraction).find? (!r.accepts ·) = some c) (pos : Nat) (rest : List Char) :
    readNumber r pos (mantissa ++ rest) = .error (.digitOutsideRadix c r) := by
  have hrefused : r.accepts c = false := by
    have hc := List.find?_some hfind
    rwa [Bool.not_eq_true'] at hc
  have hpoint : c ≠ '.' := by
    rintro rfl
    exact absurd (hdigits '.' (List.mem_of_find?_eq_some hfind)) (by cases r <;> decide)
  have hrun := takeWhile_mantissa h hdigits rest
  rcases h.before hfind with ⟨whole', fraction', front, back, hfront, haccepts, rfl⟩
  rcases read_mantissa hfront haccepts pos with ⟨places, -, hread⟩
  rw [readNumber_eq, show (fun c => c == '.' || isDigitCandidate r c) = inMantissa r from rfl, hrun,
    List.append_assoc, hread, List.cons_append, Mantissa.read, if_neg hpoint, hrefused,
    if_neg Bool.false_ne_true]

/-- No letter of a marker stands in a decimal number. -/
theorem not_markerLetter_written (h : MantissaText whole fraction mantissa)
    (hdigits : ∀ c ∈ whole ++ fraction, Radix.dec.accepts c = true)
    (hpower : PowerText .dec power k) : ∀ c ∈ mantissa ++ power, c ∉ ['b', 'o', 'd', 'x'] := by
  have hdigit : ∀ c : Char, c.isDigit = true → c ∉ ['b', 'o', 'd', 'x'] :=
    fun c hc => Radix.not_markerLetter_of_isDigit hc
  intro c hmem
  rw [List.mem_append] at hmem
  rcases hmem with hmem | hmem
  · rcases h.mem c hmem with rfl | hmem
    · decide
    · exact hdigit c (Radix.isDigit_of_accepts (by decide) (hdigits c hmem))
  · cases hpower with
    | nothing => exact absurd hmem List.not_mem_nil
    | raised _ hsign _ hes =>
        rw [List.mem_cons, List.mem_append] at hmem
        rcases hmem with rfl | hmem | hmem
        · decide
        · rcases hsign with rfl | rfl
          · exact absurd hmem List.not_mem_nil
          · rw [List.mem_singleton.mp hmem]
            decide
        · exact hdigit c (hes c hmem)
    | lowered _ _ hes =>
        rw [List.mem_cons, List.mem_cons] at hmem
        rcases hmem with rfl | rfl | hmem
        · decide
        · decide
        · exact hdigit c (hes c hmem)

/-- A number that is written out is cut off the text as it is read. -/
theorem tokenizeFrom_written (hfront : Announced r front)
    (h : MantissaText whole fraction mantissa) (hne : whole ++ fraction ≠ [])
    (hdigits : ∀ c ∈ whole ++ fraction, r.accepts c = true) (hpower : PowerText r power k)
    (pos : Nat) :
    tokenizeFrom pos (front ++ (mantissa ++ power)) =
      numberThen (readNumber r (pos + front.length) (mantissa ++ power)) fun n =>
        tokenizeFrom (pos + front.length + n) ((mantissa ++ power).drop n) := by
  cases hfront with
  | marked => exact tokenizeFrom_marked pos r _
  | plain =>
      rcases List.exists_cons_of_ne_nil (h.ne_nil hne) with ⟨c, ms, rfl⟩
      have hletters := not_markerLetter_written h hdigits hpower
      have hmarker : Radix.splitLongMarker? (c :: (ms ++ power)) = none :=
        Radix.splitLongMarker?_eq_none
          (fun d hd => hletters d (List.mem_cons_of_mem c (List.mem_of_head? hd)))
      have hc : (c.isDigit || c == '.') = true := by
        rcases h.mem c List.mem_cons_self with rfl | hmem
        · decide
        · rw [Radix.isDigit_of_accepts (by decide) (hdigits c hmem), Bool.true_or]
      exact tokenizeFrom_decimal pos hmarker hc

/-- A number that is written out is one token with exactly its value, unless its power
    of ten is too large; and if its mantissa has a digit that the base refuses, the
    first such digit is reported. -/
theorem tokenize_number (hfront : Announced r front) (h : MantissaText whole fraction mantissa) :
    (whole ++ fraction ≠ [] → (∀ c ∈ whole ++ fraction, r.accepts c = true) →
      ∀ power k, PowerText r power k →
        tokenize (front ++ (mantissa ++ power)) =
          if k.natAbs ≤ 10000 then
            .ok [.num (Numeral.denoted r (whole ++ fraction) / (r.size : ℚ) ^ fraction.length *
              10 ^ k)]
          else .error .tooComplex) ∧
      ((∀ d ∈ whole ++ fraction, isDigitCandidate r d = true) →
        ∀ c, (whole ++ fraction).find? (!r.accepts ·) = some c →
          ∀ rest, tokenize (front ++ (mantissa ++ rest)) = .error (.digitOutsideRadix c r)) := by
  constructor
  · intro hne hdigits power k hpower
    rw [tokenize, tokenizeFrom_written hfront h hne hdigits hpower,
      readNumber_written h hne hdigits hpower]
    by_cases hle : k.natAbs ≤ 10000
    · rw [if_pos hle, if_pos hle, numberThen, ← List.length_append, List.drop_length, tokenizeFrom,
        Except.map]
    · rw [if_neg hle, if_neg hle, numberThen]
  · intro hdigits c hfind rest
    cases hfront with
    | marked => rw [tokenize, tokenizeFrom_marked, readNumber_outside h hdigits hfind, numberThen]
    | plain =>
        -- Base ten refuses no digit.
        have hc := List.find?_some hfind
        have hdigit := hdigits c (List.mem_of_find?_eq_some hfind)
        rw [isDigitCandidate, show (Radix.dec == .hex) = false from rfl, Bool.false_and,
          Bool.or_false] at hdigit
        rw [(Radix.accepts_of_isDigit hdigit).1] at hc
        exact absurd hc Bool.false_ne_true

/-- In base eight `17.4` is a hundred and twenty-four eighths, and its power is one of
    ten; in base two the `2` is reported, before the number is known to be unfinished. -/
theorem tokenize_octalNumber :
    tokenize "0o:17.4E+02".toList = .ok [.num 1550] ∧
      tokenize "0b:10.12E+".toList = .error (.digitOutsideRadix '2' .bin) := by
  constructor
  · have h := (tokenize_number (.marked .oct) (.pointed "17".toList "4".toList)).1 (by decide)
      (Text.forall_of_all (by decide)) "E+02".toList 2
      (@PowerText.raised .oct ['+'] "02".toList (by decide) (.inr rfl) (by decide)
        (Text.forall_of_all (by decide)))
    rw [if_pos (by decide)] at h
    rw [show (Numeral.denoted .oct ("17".toList ++ "4".toList) : ℚ) /
      (Radix.oct.size : ℚ) ^ "4".toList.length * 10 ^ (2 : Int) = 1550 by decide +kernel] at h
    exact h
  · exact (tokenize_number (.marked .bin) (.pointed "10".toList "12".toList)).2
      (Text.forall_of_all (by decide)) '2' (by decide) "E+".toList

end Numbers

end Token

end ExactCalc
