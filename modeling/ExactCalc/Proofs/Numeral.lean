import ExactCalc.Numeral
import ExactCalc.Proofs.Text
import Mathlib.Data.List.Basic
import Mathlib.Data.List.Induction
import Mathlib.Data.Nat.Digits.Defs
import Mathlib.Tactic.Ring

/-!
# Digits and Values

The digits of a number denote that number, in each of the four bases.

The digits come from repeated division, most significant last, so the number is
taken apart by its base: the last digit is the remainder and the others are the
digits of the quotient. That is also how the value of a longer row of digits is
built, one digit at the end at a time, and the two meet by strong induction.

## Theorems

* `digit_spec`, `digit_of_accepts`: A digit and the number that it denotes.
* `digits_eq_if`: A number of several digits ends in its remainder.
* `accepts_of_mem_digits`: The digits of a number belong to its base.
* `value_digits`: The digits of a number denote it.
* `head?_digits`: The digits of a number begin with no zero.
* `toList_repr`: The text of a number is its digits in base ten.
* `value_append`: A row of digits behind another one.
-/

namespace ExactCalc

namespace Numeral

/-- The digit of a number below the size of a base belongs to the base and
    denotes the number. -/
theorem digit_spec (r : Radix) {d : Nat} (hd : d < r.size) :
    r.accepts (Nat.digitChar d).toUpper = true ∧ digitValue (Nat.digitChar d).toUpper = d := by
  have hall : ∀ r : Radix, ∀ d < r.size,
      r.accepts (Nat.digitChar d).toUpper = true ∧ digitValue (Nat.digitChar d).toUpper = d := by
    intro r
    cases r <;> decide
  exact hall r d hd

/-- A digit of a base denotes a number below the size of the base, and is the digit
    of that number. -/
theorem digit_of_accepts {r : Radix} {c : Char} (h : r.accepts c = true) :
    digitValue c < r.size ∧ (Nat.digitChar (digitValue c)).toUpper = c := by
  have hall : ∀ c ∈ r.alphabet,
      digitValue c < r.size ∧ (Nat.digitChar (digitValue c)).toUpper = c := by
    cases r <;> exact Text.forall_of_all (by decide)
  rw [Radix.accepts, List.contains_iff_mem] at h
  exact hall c h

theorem one_lt_size (r : Radix) : 1 < r.size := by
  cases r <;> decide

/-- A number below the size of the base is one digit; any other ends in the
    digit of its remainder, behind the digits of its quotient. -/
theorem digits_eq_if (r : Radix) (n : Nat) :
    digits r n = if n < r.size then [(Nat.digitChar n).toUpper]
      else digits r (n / r.size) ++ [(Nat.digitChar (n % r.size)).toUpper] := by
  unfold digits
  rw [Nat.toDigits_eq_if (one_lt_size r)]
  by_cases h : n < r.size
  · rw [if_pos h, if_pos h]
    rfl
  · rw [if_neg h, if_neg h, List.map_append]
    rfl

theorem digits_ne_nil (r : Radix) (n : Nat) : digits r n ≠ [] := by
  rw [digits_eq_if]
  by_cases h : n < r.size
  · rw [if_pos h]
    exact List.cons_ne_nil _ _
  · rw [if_neg h]
    exact List.append_ne_nil_of_right_ne_nil _ (List.cons_ne_nil _ _)

theorem accepts_of_mem_digits (r : Radix) (n : Nat) : ∀ c ∈ digits r n, r.accepts c = true := by
  induction n using Nat.strongRecOn with
  | ind n ih =>
      intro c hc
      rw [digits_eq_if] at hc
      by_cases h : n < r.size
      · rw [if_pos h, List.mem_singleton] at hc
        rw [hc]
        exact (digit_spec r h).1
      · rw [if_neg h, List.mem_append, List.mem_singleton] at hc
        have hpos := one_lt_size r
        rcases hc with hc | hc
        · exact ih (n / r.size) (Nat.div_lt_self (by omega) hpos) c hc
        · rw [hc]
          exact (digit_spec r (Nat.mod_lt n (by omega))).1

/-- The digits of a number denote it. -/
@[simp] theorem value_digits (r : Radix) (n : Nat) : value r.size (digits r n) = n := by
  induction n using Nat.strongRecOn with
  | ind n ih =>
      rw [digits_eq_if]
      by_cases h : n < r.size
      · rw [if_pos h]
        simp only [value, List.foldl_cons, List.foldl_nil, Nat.zero_mul, Nat.zero_add]
        exact (digit_spec r h).2
      · -- The quotient is smaller, and the remainder is the last digit.
        have hpos := one_lt_size r
        rw [if_neg h, value_append_singleton, ih (n / r.size) (Nat.div_lt_self (by omega) hpos),
          (digit_spec r (Nat.mod_lt n (by omega))).2]
        exact Nat.div_add_mod' n r.size

/-- The digits of a number that is not zero begin with no zero. -/
theorem head?_digits (r : Radix) {n : Nat} (hn : 0 < n) : (digits r n).head? ≠ some '0' := by
  induction n using Nat.strongRecOn with
  | ind n ih =>
      have hpos := one_lt_size r
      rw [digits_eq_if]
      by_cases h : n < r.size
      · rw [if_pos h, List.head?_cons, ne_eq, Option.some.injEq]
        intro hzero
        -- The digit denotes the number, and zero denotes nothing else.
        have hvalue := (digit_spec r h).2
        rw [hzero] at hvalue
        exact absurd hvalue (by rw [show digitValue '0' = 0 by decide]; omega)
      · rw [if_neg h, List.head?_append_of_ne_nil _ (digits_ne_nil r _)]
        exact ih (n / r.size) (Nat.div_lt_self hn hpos) (Nat.div_pos (by omega) (by omega))

/-- A number below a power of the base has no more digits than the exponent. -/
theorem length_digits_le (r : Radix) {n e : Nat} (he : 0 < e) (h : n < r.size ^ e) :
    (digits r n).length ≤ e := by
  rw [digits, List.length_map]
  exact Nat.toDigits_length r.size n e he h

/-- The text of a number is its digits in base ten. -/
theorem toList_repr (n : Nat) : n.repr.toList = digits .dec n := by
  have hupper : ∀ c ∈ Nat.toDigits 10 n, c.toUpper = c := by
    intro c hc
    have hdigit := Nat.isDigit_of_mem_toDigits (by decide) (by decide) hc
    have hall := Text.of_ascii (fun c => !c.isDigit || c.toUpper == c) (by decide +kernel)
      (Text.toNat_lt_of_isNameChar (Text.isNameChar_of_isDigit hdigit))
    simpa only [hdigit, Bool.not_true, Bool.false_or, beq_iff_eq] using hall
  calc n.repr.toList = Nat.toDigits 10 n := Nat.toList_repr
    _ = (Nat.toDigits 10 n).map Char.toUpper := by
      rw [List.map_congr_left hupper, List.map_id']
    _ = digits .dec n := rfl

/-- A row of digits in front of another one counts for as many places more. -/
@[simp, grind =] theorem value_append (b : Nat) (as bs : List Char) :
    value b (as ++ bs) = value b as * b ^ bs.length + value b bs := by
  induction bs using List.reverseRecOn with
  | nil => rw [List.append_nil, List.length_nil, pow_zero, Nat.mul_one]; rfl
  | append_singleton bs c ih =>
      rw [← List.append_assoc, value_append_singleton, ih, value_append_singleton,
        List.length_append, List.length_singleton, pow_succ]
      ring

/-- Zeros in front of a row of digits count for nothing. -/
theorem value_zeros_append (b k : Nat) (ds : List Char) :
    value b (List.replicate k '0' ++ ds) = value b ds := by
  have hzeros : value b (List.replicate k '0') = 0 := by
    induction k with
    | zero => rfl
    | succ k ih => rw [List.replicate_succ', value_append_singleton, ih, Nat.zero_mul]; rfl
  rw [value_append, hzeros, Nat.zero_mul, Nat.zero_add]

end Numeral

end ExactCalc
