import ExactCalc.Engine.Exact
import ExactCalc.Proofs.Simplify.Meaning
import ExactCalc.Proofs.Simplify.NormalForm

/-!
# Exact Arithmetic

An expression of plain arithmetic is worked out exactly, and a division by zero
in it is reported just when it happens.

What such an expression is worth is said without the simplifier: `arithmetic`
works it out over the rational numbers from the leaves up and stops at the first
denominator that is zero. Simplifying does not stop there. It drops a zero
factor's partner, the base of a zeroth power and the difference of two equal
trees, whatever they contain, so the division is looked for in the tree before
it is simplified, and each denominator is judged by its simplified form. Both
sides therefore go through one induction: the test is right about a quotient
because its denominator simplifies to its value, and the quotient simplifies to
its value because the test found its denominator not to be zero.

A power is worked out only if it is of moderate size. `Moderate` asks this of
every power in an expression that has a base and an exponent to speak of.

## Main definitions

* `Expr.Obstacle`, `Expr.arithmetic`: The value of an expression over the
  rational numbers, or why it has none.
* `Expr.Moderate`: An expression of plain arithmetic within the bounds.
* `Expr.Settles`: What the test for a division by zero and the simplifier make of
  an expression with a given value.

## Theorems

* `settles_operation`: An operation is settled by its operands and at their values.
* `settles_both`, `settles_div`, `settles_pow`: The operations one by one.
* `settles_arithmetic`: The test and the simplifier agree with the arithmetic.
* `run_render_byZero`, `run_render_number`, `run_render_value`: Rendering, by
  what the test and the simplifier say.
* `numeric_exact`: What rendering the number gives.
-/

namespace ExactCalc

namespace Expr

/-- Why an expression has no value among the rational numbers. -/
inductive Obstacle where
  | divisionByZero
  /-- The expression is not one of plain arithmetic. -/
  | notArithmetic
  deriving DecidableEq, Repr

/-- The value of an expression over the rational numbers, worked out from the
    leaves up. A zeroth power is one, that of zero included. -/
def arithmetic : Expr → Except Obstacle Rat
  | rat q => .ok q
  | pi | var _ | sqrt _ => .error .notArithmetic
  | abs x => do
    let u ← x.arithmetic
    .ok |u|
  | add a b => do
    let u ← a.arithmetic
    let v ← b.arithmetic
    .ok (u + v)
  | sub a b => do
    let u ← a.arithmetic
    let v ← b.arithmetic
    .ok (u - v)
  | mul a b => do
    let u ← a.arithmetic
    let v ← b.arithmetic
    .ok (u * v)
  | div a b => do
    let u ← a.arithmetic
    let v ← b.arithmetic
    if v = 0 then .error .divisionByZero else .ok (u / v)
  | pow a b => do
    let u ← a.arithmetic
    let v ← b.arithmetic
    if v.den ≠ 1 then .error .notArithmetic
    else if u = 0 ∧ v.num < 0 then .error .divisionByZero
    else .ok (u ^ v.num)

/-- An expression of plain arithmetic in which every exponent that has a value is
    a whole number of moderate size, and every power is of moderate size. -/
def Moderate : Expr → Prop
  | rat _ => True
  | pi | var _ | sqrt _ => False
  | abs x => x.Moderate
  | add a b | sub a b | mul a b | div a b => a.Moderate ∧ b.Moderate
  | pow a b => a.Moderate ∧ b.Moderate ∧
      ∀ v, b.arithmetic = .ok v → v.den = 1 ∧ v.num.natAbs ≤ largestExponent ∧
        ∀ u, a.arithmetic = .ok u → v.num.natAbs * Rational.size u ≤ largestPowerSize

/-- A condition on the value of an expression can be decided if it has none, and
    otherwise as that value decides it. -/
def decidableOfValue (r : Except Obstacle Rat) (P : Rat → Prop) [DecidablePred P] :
    Decidable (∀ v, r = .ok v → P v) :=
  match r with
  | .error _ => .isTrue (fun _ h => nomatch h)
  | .ok u => decidable_of_iff (P u) ⟨fun h _ hv => Except.ok.inj hv ▸ h, fun h => h u rfl⟩

instance decidableModerate : (e : Expr) → Decidable e.Moderate
  | rat _ => .isTrue trivial
  | pi | var _ | sqrt _ => .isFalse id
  | abs x => decidableModerate x
  | add a b | sub a b | mul a b | div a b =>
    have := decidableModerate a
    have := decidableModerate b
    inferInstanceAs (Decidable (a.Moderate ∧ b.Moderate))
  | pow a b =>
    have := decidableModerate a
    have := decidableModerate b
    have : ∀ v : Rat, Decidable (∀ u, a.arithmetic = .ok u →
        v.num.natAbs * Rational.size u ≤ largestPowerSize) :=
      fun _ => decidableOfValue a.arithmetic _
    have := decidableOfValue b.arithmetic (fun v => v.den = 1 ∧ v.num.natAbs ≤ largestExponent ∧
      ∀ u, a.arithmetic = .ok u → v.num.natAbs * Rational.size u ≤ largestPowerSize)
    inferInstanceAs (Decidable (_ ∧ _ ∧ _))

/-- The test for a division by zero finds none in an expression that has a value,
    and the expression simplifies to it; and it finds the division that keeps an
    expression from having a value. Neither breaks down. -/
inductive Settles (e : Expr) : Except Obstacle Rat → Prop where
  | value {v : Rat} (htest : e.dividesByZero = .ok false) (hform : Simplifies e (.rat v)) :
      Settles e (.ok v)
  | byZero (htest : e.dividesByZero = .ok true) : Settles e (.error .divisionByZero)

section Operations

variable {a b e : Expr} {r s : Except Obstacle Rat}

@[simp] theorem minus_rat (u v : Rat) : minus (.rat u) (.rat v) = .rat (u - v) := by
  unfold minus
  by_cases h : Expr.rat u = Expr.rat v
  · rw [if_pos h, Expr.rat.inj h, sub_self]
  · rw [if_neg h]

theorem quotient_rat (u : Rat) {v : Rat} (hv : v ≠ 0) :
    quotient (.rat u) (.rat v) = .rat (u / v) := by
  have hzero : ¬(Expr.rat v).isZero = true := by
    simpa only [isZero, beq_iff_eq] using hv
  have hone : ¬(Expr.rat u = Expr.rat v ∧ (!(Expr.rat u).isRat) = true ∧
      (!(Expr.rat u).hasVariable) = true) := by
    rintro ⟨-, h, -⟩
    exact absurd h (by simp only [isRat, number?, Option.isSome_some, Bool.not_true,
      Bool.false_eq_true, not_false_eq_true])
  unfold quotient plainQuotient
  simp only [hzero, hone, if_false, withCoefficient, coefficient]
  rw [div_eq_mul_inv, mul_comm]
  rfl

@[simp] theorem modulus_rat (u : Rat) : modulus (.rat u) = .rat |u| := by
  unfold modulus
  by_cases hu : u < 0
  · simp only [hu, if_true, abs_of_neg hu]
  · simp only [hu, if_false, abs_of_nonneg (not_lt.mp hu)]

theorem powInt_eq_zpow (u : Rat) (n : Int) : Rational.powInt u n = u ^ n := by
  simpa only [Rat.cast_id] using Rooted.cast_powInt (K := Rat) u n

/-- Raising a number within the bounds. -/
theorem raise_rat {u v : Rat} (hwhole : v.den = 1) (hexp : v.num.natAbs ≤ largestExponent)
    (hsize : v.num.natAbs * Rational.size u ≤ largestPowerSize) (hzero : ¬(u = 0 ∧ v.num < 0)) :
    raise (.rat u) (.rat v) = .ok (.rat (u ^ v.num)) := by
  have hraise : raise (.rat u) (.rat v) = .ok (raiseInt (.rat u) v.num) := by
    rw [← raise_whole _ hexp, Rat.mkRat_one, Rat.coe_int_num_of_den_eq_one hwhole]
  have hfits : powerFits u v.num = true := by
    simp only [powerFits, Bool.and_eq_true, decide_eq_true_eq, Bool.not_eq_true',
      Bool.and_eq_false_iff, beq_eq_false_iff_ne, decide_eq_false_iff_not]
    refine ⟨by rw [Nat.mul_comm]; exact hsize, ?_⟩
    by_cases hu : u = 0
    · exact .inr (fun hn => hzero ⟨hu, hn⟩)
    · exact .inl hu
  rw [hraise, raiseInt, Except.ok.injEq]
  by_cases h0 : v.num = 0
  · rw [if_pos h0, h0, zpow_zero]
  by_cases h1 : v.num = 1
  · rw [if_neg h0, if_pos h1, h1, zpow_one]
  · rw [if_neg h0, if_neg h1, if_pos hfits, powInt_eq_zpow]

/-- A division by zero in an operand is one in the whole; the second operand is only
    looked at if the first has none. Otherwise the operands have values, and the
    operation is settled there. -/
theorem settles_operation {f : Rat → Rat → Except Obstacle Rat} {rest : Checked Bool}
    (htest : e.dividesByZero = (a.dividesByZero <||> rest))
    (hrest : b.dividesByZero = .ok true → rest = .ok true)
    (hvalues : ∀ u v, r = .ok u → s = .ok v →
      a.dividesByZero = .ok false → b.dividesByZero = .ok false →
      Simplifies a (.rat u) → Simplifies b (.rat v) → Settles e (f u v))
    (ha : Settles a r) (hb : Settles b s) : Settles e (do let u ← r; let v ← s; f u v) := by
  cases ha with
  | byZero hta => exact .byZero (htest.trans (or_of_true hta))
  | @value u hta hfa =>
      cases hb with
      | byZero htb => exact .byZero (htest.trans ((or_of_false hta).trans (hrest htb)))
      | @value v htb hfb => exact hvalues u v rfl rfl hta htb hfa hfb

/-- An operation that is defined of all numbers. -/
theorem settles_both {f : Rat → Rat → Rat}
    (htest : e.dividesByZero = (a.dividesByZero <||> b.dividesByZero))
    (hform : ∀ u v, Simplifies a (.rat u) → Simplifies b (.rat v) → Simplifies e (.rat (f u v)))
    (ha : Settles a r) (hb : Settles b s) :
    Settles e (do let u ← r; let v ← s; .ok (f u v)) := by
  refine settles_operation htest id (fun u v _ _ hta htb hfa hfb => ?_) ha hb
  exact .value (htest.trans ((or_of_false hta).trans htb)) (hform u v hfa hfb)

theorem settles_div (ha : Settles a r) (hb : Settles b s) :
    Settles (.div a b)
      (do let u ← r; let v ← s; if v = 0 then .error .divisionByZero else .ok (u / v)) := by
  refine settles_operation (by rw [dividesByZero]) or_of_true
    (fun u v _ _ hta htb hfa hfb => ?_) ha hb
  -- The denominator simplifies to its value, so the test judges it rightly.
  have htest : (Expr.div a b).dividesByZero = .ok (v == 0) := by
    rw [dividesByZero, or_of_false hta, or_of_false htb, simplify_eq_ok.mpr hfb]
    rfl
  by_cases hv : v = 0
  · rw [if_pos hv]
    exact .byZero (by rw [htest, hv]; rfl)
  · rw [if_neg hv]
    exact .value (by rw [htest, beq_eq_false_iff_ne.mpr hv])
      (quotient_rat u hv ▸ hfa.div hfb)

theorem settles_pow (ha : Settles a r) (hb : Settles b s)
    (hbound : ∀ v, s = .ok v → v.den = 1 ∧ v.num.natAbs ≤ largestExponent ∧
      ∀ u, r = .ok u → v.num.natAbs * Rational.size u ≤ largestPowerSize) :
    Settles (.pow a b)
      (do
        let u ← r
        let v ← s
        if v.den ≠ 1 then .error .notArithmetic
        else if u = 0 ∧ v.num < 0 then .error .divisionByZero
        else .ok (u ^ v.num)) := by
  refine settles_operation (by rw [dividesByZero]) or_of_true
    (fun u v hu hv hta htb hfa hfb => ?_) ha hb
  rcases hbound v hv with ⟨hwhole, hexp, hsize⟩
  have hexponent : (Expr.rat v).exponent = .ok (some v.num) :=
    exponent_eq_some.mpr ⟨by rw [Rat.mkRat_one, Rat.coe_int_num_of_den_eq_one hwhole], hexp⟩
  have htest : (Expr.pow a b).dividesByZero =
      if v.num < 0 then .ok (u == 0) else .ok false := by
    rw [dividesByZero, or_of_false hta, or_of_false htb, simplify_eq_ok.mpr hfa,
      simplify_eq_ok.mpr hfb]
    show ((Expr.rat v).exponent >>= fun n =>
      if n.any (· < 0) then .ok (u == 0) else .ok false) = _
    rw [hexponent]
    exact if_congr decide_eq_true_iff rfl rfl
  rw [if_neg (not_not.mpr hwhole)]
  by_cases hzero : u = 0 ∧ v.num < 0
  · rw [if_pos hzero]
    exact .byZero (by rw [htest, if_pos hzero.2, hzero.1]; rfl)
  · rw [if_neg hzero]
    have hnone : (if v.num < 0 then .ok (u == 0) else .ok false : Checked Bool) = .ok false := by
      by_cases hn : v.num < 0
      · rw [if_pos hn, beq_eq_false_iff_ne.mpr fun hu => hzero ⟨hu, hn⟩]
      · exact if_neg hn
    exact .value (htest.trans hnone) (hfa.pow hfb (raise_rat hwhole hexp (hsize u hu) hzero))

end Operations

/-- The test for a division by zero and the simplifier agree with the arithmetic. -/
theorem settles_arithmetic {e : Expr} (h : e.Moderate) : Settles e e.arithmetic := by
  induction e with
  | rat q => exact .value rfl (.rat q)
  | pi | var | sqrt => exact absurd h id
  | abs x ih =>
      unfold arithmetic
      generalize x.arithmetic = r at ih
      cases ih h with
      | byZero ht => exact .byZero ht
      | @value u ht hf => exact .value ht (modulus_rat u ▸ hf.abs)
  | pow a b iha ihb => exact settles_pow (iha h.1) (ihb h.2.1) h.2.2
  | add a b iha ihb => exact settles_both rfl (fun u v ha hb => ha.add hb) (iha h.1) (ihb h.2)
  | sub a b iha ihb =>
      exact settles_both rfl (fun u v ha hb => minus_rat u v ▸ ha.sub hb) (iha h.1) (ihb h.2)
  | mul a b iha ihb => exact settles_both rfl (fun u v ha hb => ha.mul hb) (iha h.1) (ihb h.2)
  | div a b iha ihb => exact settles_div (iha h.1) (ihb h.2)

end Expr

namespace Exact

/-- A calculation that was not called off goes on. -/
@[simp] theorem check_false : toRendering (check false) = pure () := rfl

@[simp] theorem lift_ok {ε α : Type} (a : α) : (lift (.ok a) : WorkUntil ε α) = pure a := rfl

@[simp] theorem ofChecked_ok {α : Type} (a : α) : Stop.ofChecked (.ok a) = .ok a := rfl

/-- Rendering stops at a division by zero. -/
theorem run_render_byZero (d : Deferred) (messages : List Message)
    (h : d.tree.dividesByZero = .ok true) :
    run (render d false) messages = ⟨.failure (.arithmetic .divisionByZero), messages, []⟩ := by
  simp only [render, check_false, pure_bind, h, ofChecked_ok, lift_ok, if_true]
  rfl

/-- Rendering a tree that simplifies to a number gives its decimal text, with a
    remark if the text is cut off. -/
theorem run_render_number (d : Deferred) (messages : List Message) (v : Rat)
    (hop : d.operation = .numeric) (h : d.tree.dividesByZero = .ok false)
    (hform : d.tree.simplify = .ok (.rat v)) :
    run (render d false) messages =
      ⟨.value (String.ofList (Decimal.ofRat v d.places).1),
        if (Decimal.ofRat v d.places).2 then messages
        else (Trail.keep ⟨messages, []⟩ (truncationMessage d.places)).messages, []⟩ := by
  simp only [render, check_false, pure_bind, h, ofChecked_ok, lift_ok, Bool.false_eq_true, if_false,
    hop, hform, numericText, Expr.firstVariable?, Expr.number?]
  rcases hdecimal : Decimal.ofRat v d.places with ⟨text, _ | _⟩
  · simp only [Bool.not_false, if_true, Bool.false_eq_true, if_false]
    exact congrArg (Engine.Call.mk _ _) (log_keep ⟨messages, []⟩ _)
  · rfl

/-- Rendering a tree that simplifies to no number reads its value with guard
    places, cuts them off and leaves a remark. -/
theorem run_render_value (d : Deferred) (messages : List Message) {e : Expr} (n : Int)
    (hop : d.operation = .numeric) (h : d.tree.dividesByZero = .ok false)
    (hform : d.tree.simplify = .ok e) (hvariable : e.firstVariable? = none)
    (hnumber : e.number? = none)
    (hvalue : FixedPoint.value (d.places + FixedPoint.guardPlaces) false e = .ok n) :
    run (render d false) messages =
      ⟨.value (String.ofList (Decimal.trim
          (Decimal.ofScaled (n.tdiv (Decimal.scale FixedPoint.guardPlaces)) d.places))),
        (Trail.keep ⟨messages, []⟩ (truncationMessage d.places)).messages, []⟩ := by
  simp only [render, check_false, pure_bind, h, ofChecked_ok, lift_ok, Bool.false_eq_true, if_false,
    hop, hform, numericText, hvariable, hnumber, hvalue]
  exact congrArg (Engine.Call.mk _ _) (log_keep ⟨messages, []⟩ _)

/-- Rendering the number that an expression of plain arithmetic stands for gives
    the decimal text of its exact value, and fails just when working it out meets
    a division by zero. -/
theorem numeric_exact {e : Expr} (h : e.Moderate) (places : Nat) (messages : List Message) :
    let reply := (run (render ⟨e, .numeric, places⟩ false) messages).reply
    ∃ divided, e.dividesByZero = .ok divided ∧
      (divided = true ↔ e.arithmetic = .error .divisionByZero) ∧
      (divided = false → ∃ v, e.arithmetic = .ok v ∧ e.simplify = .ok (.rat v) ∧
        reply = .value (String.ofList (Decimal.ofRat v places).1)) ∧
      (divided = true → reply = .failure (.arithmetic .divisionByZero)) ∧
      ((∃ error, reply = .failure error) ↔ divided = true) := by
  intro reply
  have hsettles := Expr.settles_arithmetic h
  generalize e.arithmetic = r at hsettles
  cases hsettles with
  | @value v htest hform =>
      have hsimple := Expr.simplify_eq_ok.mpr hform
      have hreply : reply = .value (String.ofList (Decimal.ofRat v places).1) :=
        congrArg Engine.Call.reply
          (run_render_number ⟨e, .numeric, places⟩ messages v rfl htest hsimple)
      rw [hreply]
      refine ⟨false, htest, ?_, fun _ => ⟨v, rfl, hsimple, rfl⟩, ?_, ?_⟩ <;>
        simp only [Bool.false_eq_true, reduceCtorEq, IsEmpty.forall_iff, exists_false]
  | byZero htest =>
      have hreply : reply = .failure (.arithmetic .divisionByZero) :=
        congrArg Engine.Call.reply (run_render_byZero ⟨e, .numeric, places⟩ messages htest)
      rw [hreply]
      refine ⟨true, htest, ?_, ?_, fun _ => rfl, iff_of_true ⟨_, rfl⟩ rfl⟩ <;>
        simp only [Bool.true_eq_false, IsEmpty.forall_iff]

/-- A product with zero that drops a negative power of zero. -/
def hiddenDivision : Expr :=
  .mul (.rat 0) (.pow (.sub (.rat (1 / 3)) (.div (.rat 1) (.rat 3))) (.rat (-1)))

/-- A number whose decimal form does not end. -/
def cubeOverThree : Expr :=
  .div (.abs (.pow (.sub (.rat 0) (.rat 2)) (.rat 3))) (.rat (-3))

theorem numeric_exact_both :
    (hiddenDivision.Moderate ∧
        (run (render ⟨hiddenDivision, .numeric, 20⟩ false) []).reply =
          .failure (.arithmetic .divisionByZero)) ∧
      cubeOverThree.Moderate ∧
        (run (render ⟨cubeOverThree, .numeric, 20⟩ false) []).reply =
          .value (String.ofList (Decimal.ofRat (-8 / 3) 20).1) := by
  have hhidden : hiddenDivision.Moderate := by decide +kernel
  have hthree : cubeOverThree.Moderate := by decide +kernel
  have hvalue : cubeOverThree.arithmetic = .ok (-8 / 3) := by decide +kernel
  refine ⟨⟨hhidden, ?_⟩, hthree, ?_⟩
  · rcases numeric_exact hhidden 20 [] with ⟨divided, -, htest, -, hreply, -⟩
    exact hreply (htest.mpr (by decide +kernel))
  · rcases numeric_exact hthree 20 [] with ⟨divided, -, htest, hreply, -, -⟩
    have hnone : divided = false := by
      rw [← Bool.not_eq_true, htest, hvalue]
      nofun
    rcases hreply hnone with ⟨v, hv, -, htext⟩
    rw [hvalue, Except.ok.injEq] at hv
    rw [htext, hv]

end Exact

end ExactCalc
