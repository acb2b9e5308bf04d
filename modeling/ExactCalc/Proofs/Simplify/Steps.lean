import ExactCalc.Expr.Simplify
import Mathlib.Data.Rat.Cast.Lemmas

/-!
# The Steps of Simplifying

What a simplification goes through, and where it breaks down.

`Simplifies` has one clause for each operation and says what is made of the
simplified operands. It holds just of the trees that are simplified to one, so
what the combining functions keep is shown of a simplified tree by induction on
the clauses.

A power is the only operation that may break down, and it does so at one
exponent: the least machine word, whose modulus overflows. All operands are
simplified before an operation looks at them. So a tree is simplified to one
just when no power in it, however deep, has an exponent that is simplified to
the least word.

## Main definitions

* `Expr.Simplifies`: The clauses.
* `Expr.subtrees`, `Expr.Throughout`: A tree and all trees in it, and what holds of
  all of them.
* `Expr.Overflowing`, `Expr.Contained`: A power that breaks down, and a tree
  without one.

## Theorems

* `simplify_eq_ok`: A simplified tree is one by the clauses.
* `exponent_eq_some`, `exponent_isOk`: The exponents that are worked out, and those
  that are read at all.
* `raise_eq_ok`: What becomes of a power.
* `or_eq_false`, `or_of_true`, `or_of_false`: A search that may break down.
* `simplify_isOk`: When a tree is simplified.
-/

namespace ExactCalc

namespace Expr

/-- What a tree is simplified to: the operands first, and then what is made of them. -/
inductive Simplifies : Expr → Expr → Prop where
  | rat (q : Rat) : Simplifies (.rat q) (.rat q)
  | pi : Simplifies .pi .pi
  | var (name : String) : Simplifies (.var name) (.var name)
  | sqrt {x x' : Expr} (hx : Simplifies x x') : Simplifies (.sqrt x) (root x')
  | abs {x x' : Expr} (hx : Simplifies x x') : Simplifies (.abs x) (modulus x')
  | pow {a b a' b' r : Expr} (ha : Simplifies a a') (hb : Simplifies b b')
      (h : raise a' b' = .ok r) : Simplifies (.pow a b) r
  | add {a b a' b' : Expr} (ha : Simplifies a a') (hb : Simplifies b b') :
      Simplifies (.add a b) (plus a' b')
  | sub {a b a' b' : Expr} (ha : Simplifies a a') (hb : Simplifies b b') :
      Simplifies (.sub a b) (minus a' b')
  | mul {a b a' b' : Expr} (ha : Simplifies a a') (hb : Simplifies b b') :
      Simplifies (.mul a b) (times a' b')
  | div {a b a' b' : Expr} (ha : Simplifies a a') (hb : Simplifies b b') :
      Simplifies (.div a b) (quotient a' b')

section Outcomes

variable {a b e x s : Expr}

theorem simplify_eq_ok : e.simplify = .ok s ↔ Simplifies e s := by
  constructor
  · intro h
    induction e generalizing s with
    | rat | pi | var =>
        rw [← Except.ok.inj h]
        constructor
    | sqrt x ih | abs x ih =>
        rcases bind_eq_ok.mp h with ⟨x', hx, hs⟩
        rw [← Except.ok.inj hs]
        constructor
        exact ih hx
    | pow a b iha ihb =>
        rcases bind_eq_ok.mp h with ⟨a', ha, h⟩
        rcases bind_eq_ok.mp h with ⟨b', hb, hs⟩
        exact .pow (iha ha) (ihb hb) hs
    | add a b iha ihb | sub a b iha ihb | mul a b iha ihb | div a b iha ihb =>
        rcases bind_eq_ok.mp h with ⟨a', ha, h⟩
        rcases bind_eq_ok.mp h with ⟨b', hb, hs⟩
        rw [← Except.ok.inj hs]
        constructor
        · exact iha ha
        · exact ihb hb
  · intro h
    induction h with
    | rat | pi | var => rfl
    | sqrt _ ih | abs _ ih => exact bind_eq_ok.mpr ⟨_, ih, rfl⟩
    | pow _ _ h iha ihb => exact bind_eq_ok.mpr ⟨_, iha, bind_eq_ok.mpr ⟨_, ihb, h⟩⟩
    | add _ _ iha ihb | sub _ _ iha ihb | mul _ _ iha ihb | div _ _ iha ihb =>
        exact bind_eq_ok.mpr ⟨_, iha, bind_eq_ok.mpr ⟨_, ihb, rfl⟩⟩

/-- A whole number that is no moderate exponent is left alone, or is the least word. -/
theorem wholeExponent_cases (n : Int) :
    (wholeExponent n = .ok (some n) ∧ n.natAbs ≤ largestExponent) ∨
      (wholeExponent n = .ok none ∧ largestExponent < n.natAbs ∧ n ≠ Word.least) ∨
        (wholeExponent n = .error .modulus ∧ n = Word.least) := by
  by_cases hle : n.natAbs ≤ largestExponent
  · exact .inl ⟨wholeExponent_of_le hle, hle⟩
  by_cases hleast : n = Word.least
  · exact .inr (.inr ⟨hleast ▸ wholeExponent_least, hleast⟩)
  refine .inr (.inl ⟨?_, not_le.mp hle, hleast⟩)
  unfold wholeExponent
  rcases hword : Word.signed? n with _ | m
  · rfl
  · rw [← (Word.signed?_eq_some.mp hword).1]
    simp only [Word.modulus_of_ne_least hleast]
    exact congrArg Except.ok (if_neg hle)

/-- What a tree is read as, if it is a whole number, and that it is left alone otherwise. -/
@[simp] theorem exponent_of_int (n : Int) : (rat n).exponent = wholeExponent n := by
  rw [exponent, Rational.isWhole, Rat.den_intCast, Rat.num_intCast]
  rfl

theorem exponent_cases (b : Expr) : (∃ n : Int, b = .rat n) ∨ b.exponent = .ok none := by
  cases b with
  | rat q =>
      by_cases hq : Rational.isWhole q = true
      · have hden : q.den = 1 := by simpa only [Rational.isWhole, beq_iff_eq] using hq
        exact .inl ⟨q.num, congrArg Expr.rat (Rat.coe_int_num_of_den_eq_one hden).symm⟩
      · exact .inr (if_neg hq)
  | _ => exact .inr rfl

/-- The exponent is the number the tree stands for, and of moderate size. -/
theorem exponent_eq_some {n : Int} :
    b.exponent = .ok (some n) ↔ b = .rat (mkRat n 1) ∧ n.natAbs ≤ largestExponent := by
  rw [Rat.mkRat_one]
  constructor
  · intro h
    rcases exponent_cases b with ⟨m, rfl⟩ | hnone
    · rw [exponent_of_int] at h
      rcases wholeExponent_cases m with ⟨hm, hle⟩ | ⟨hm, -⟩ | ⟨hm, -⟩ <;> rw [hm] at h
      · rw [Except.ok.injEq, Option.some.injEq] at h
        exact h ▸ ⟨rfl, hle⟩
      · cases h
      · cases h
    · rw [hnone] at h
      cases h
  · rintro ⟨rfl, hn⟩
    exact (exponent_of_int n).trans (wholeExponent_of_le hn)

/-- Reading an exponent breaks down at one number only. -/
theorem exponent_isOk : (∃ n, b.exponent = .ok n) ↔ b ≠ .rat Word.least := by
  constructor
  · rintro ⟨n, hn⟩ rfl
    cases (exponent_of_int Word.least).symm.trans hn
  · intro hb
    rcases exponent_cases b with ⟨m, rfl⟩ | hnone
    · rw [exponent_of_int]
      rcases wholeExponent_cases m with ⟨hm, -⟩ | ⟨hm, -⟩ | ⟨-, rfl⟩
      · exact ⟨_, hm⟩
      · exact ⟨_, hm⟩
      · exact absurd rfl hb
    · exact ⟨none, hnone⟩

/-- A power is worked out if its exponent is moderate, and left in place otherwise. -/
theorem raise_eq_ok : raise a b = .ok s ↔
    (∃ n, b.exponent = .ok (some n) ∧ s = raiseInt a n) ∨
      (b.exponent = .ok none ∧ s = .pow a b) := by
  unfold raise
  rw [bind_eq_ok]
  constructor
  · rintro ⟨_ | n, hb, hs⟩
    · exact .inr ⟨hb, (Except.ok.inj hs).symm⟩
    · exact .inl ⟨n, hb, (Except.ok.inj hs).symm⟩
  · rintro (⟨n, hb, rfl⟩ | ⟨hb, rfl⟩)
    · exact ⟨some n, hb, rfl⟩
    · exact ⟨none, hb, rfl⟩

theorem raise_isOk : (∃ r, raise a b = .ok r) ↔ b ≠ .rat Word.least := by
  unfold raise
  rw [← exponent_isOk]
  rcases b.exponent with o | _ | n
  · exact ⟨fun ⟨_, h⟩ => (nomatch h), fun ⟨_, h⟩ => nomatch h⟩
  · exact ⟨fun _ => ⟨_, rfl⟩, fun _ => ⟨_, rfl⟩⟩
  · exact ⟨fun _ => ⟨_, rfl⟩, fun _ => ⟨_, rfl⟩⟩

/-- Raising to a tree that is a moderate whole number. -/
theorem raise_whole (a : Expr) {n : Int} (hn : n.natAbs ≤ largestExponent) :
    raise a (.rat (mkRat n 1)) = .ok (raiseInt a n) :=
  raise_eq_ok.mpr (.inl ⟨n, exponent_eq_some.mpr ⟨rfl, hn⟩, rfl⟩)

end Outcomes

section Search

variable {found rest : Checked Bool}

/-- A search finds nothing if it finds nothing at first and nothing then. -/
theorem or_eq_false : (found <||> rest) = .ok false ↔ found = .ok false ∧ rest = .ok false := by
  rcases found with o | _ | _
  · exact ⟨nofun, nofun⟩
  · exact (and_iff_right rfl).symm
  · exact ⟨nofun, nofun⟩

theorem or_of_true (h : found = .ok true) : (found <||> rest) = .ok true := by
  rw [h]
  rfl

theorem or_of_false (h : found = .ok false) : (found <||> rest) = rest := by
  rw [h]
  rfl

end Search

section Subtrees

/-- A tree and all trees in it. -/
def subtrees : Expr → List Expr
  | rat q => [rat q]
  | pi => [pi]
  | var name => [var name]
  | sqrt x => sqrt x :: x.subtrees
  | abs x => abs x :: x.subtrees
  | pow a b => pow a b :: (a.subtrees ++ b.subtrees)
  | add a b => add a b :: (a.subtrees ++ b.subtrees)
  | sub a b => sub a b :: (a.subtrees ++ b.subtrees)
  | mul a b => mul a b :: (a.subtrees ++ b.subtrees)
  | div a b => div a b :: (a.subtrees ++ b.subtrees)

/-- All trees in a tree, itself included, have a property. -/
def Throughout (P : Expr → Prop) (e : Expr) : Prop := ∀ s ∈ e.subtrees, P s

variable {P : Expr → Prop} {a b e x : Expr}

theorem throughout_single (he : e.subtrees = e :: x.subtrees) :
    e.Throughout P ↔ P e ∧ x.Throughout P := by
  unfold Throughout
  rw [he]
  exact List.forall_mem_cons

theorem throughout_pair (he : e.subtrees = e :: (a.subtrees ++ b.subtrees)) :
    e.Throughout P ↔ P e ∧ a.Throughout P ∧ b.Throughout P := by
  unfold Throughout
  rw [he, List.forall_mem_cons, List.forall_mem_append]

/-- A power whose exponent is simplified to the least machine word. -/
def Overflowing : Expr → Prop
  | pow _ b => b.simplify = .ok (.rat Word.least)
  | _ => False

instance decidableOverflowing : DecidablePred Overflowing
  | pow _ b => inferInstanceAs (Decidable (b.simplify = .ok (.rat Word.least)))
  | rat _ | pi | var _ | sqrt _ | abs _ | add _ _ | sub _ _ | mul _ _ | div _ _ => .isFalse id

/-- No power in the tree overflows. -/
def Contained (e : Expr) : Prop := ∀ s ∈ e.subtrees, ¬s.Overflowing

instance decidableContained (e : Expr) : Decidable e.Contained :=
  inferInstanceAs (Decidable (∀ s ∈ e.subtrees, ¬s.Overflowing))

theorem contained_single (he : e.subtrees = e :: x.subtrees) :
    e.Contained ↔ ¬e.Overflowing ∧ x.Contained := throughout_single he

theorem contained_pair (he : e.subtrees = e :: (a.subtrees ++ b.subtrees)) :
    e.Contained ↔ ¬e.Overflowing ∧ a.Contained ∧ b.Contained := throughout_pair he

/-- An operation on one tree is simplified if that is. -/
theorem isOk_single {f : Expr → Expr} (he : e.simplify = do .ok (f (← x.simplify)))
    (hsub : e.subtrees = e :: x.subtrees) (hover : ¬e.Overflowing)
    (ih : (∃ s, x.simplify = .ok s) ↔ x.Contained) :
    (∃ s, e.simplify = .ok s) ↔ e.Contained := by
  rw [contained_single hsub, ← ih, and_iff_right hover, he]
  constructor
  · rintro ⟨s, hs⟩
    rcases bind_eq_ok.mp hs with ⟨x', hx, -⟩
    exact ⟨x', hx⟩
  · rintro ⟨x', hx⟩
    exact ⟨f x', bind_eq_ok.mpr ⟨x', hx, rfl⟩⟩

/-- An operation on two trees that does not break down is simplified if both are. -/
theorem isOk_pair {f : Expr → Expr → Expr}
    (he : e.simplify = do .ok (f (← a.simplify) (← b.simplify)))
    (hsub : e.subtrees = e :: (a.subtrees ++ b.subtrees)) (hover : ¬e.Overflowing)
    (iha : (∃ s, a.simplify = .ok s) ↔ a.Contained)
    (ihb : (∃ s, b.simplify = .ok s) ↔ b.Contained) :
    (∃ s, e.simplify = .ok s) ↔ e.Contained := by
  rw [contained_pair hsub, ← iha, ← ihb, and_iff_right hover, he]
  constructor
  · rintro ⟨s, hs⟩
    rcases bind_eq_ok.mp hs with ⟨a', ha, hs⟩
    rcases bind_eq_ok.mp hs with ⟨b', hb, -⟩
    exact ⟨⟨a', ha⟩, ⟨b', hb⟩⟩
  · rintro ⟨⟨a', ha⟩, ⟨b', hb⟩⟩
    exact ⟨f a' b', bind_eq_ok.mpr ⟨a', ha, bind_eq_ok.mpr ⟨b', hb, rfl⟩⟩⟩

/-- A tree is simplified unless a power in it overflows. -/
theorem simplify_isOk (e : Expr) : (∃ s, e.simplify = .ok s) ↔ e.Contained := by
  induction e with
  | rat | pi | var => exact ⟨fun _ => List.forall_mem_singleton.mpr id, fun _ => ⟨_, rfl⟩⟩
  | sqrt x ih | abs x ih => exact isOk_single rfl rfl id ih
  | add a b iha ihb | sub a b iha ihb | mul a b iha ihb | div a b iha ihb =>
      exact isOk_pair rfl rfl id iha ihb
  | pow a b iha ihb =>
      rw [contained_pair rfl, ← iha, ← ihb]
      constructor
      · rintro ⟨s, hs⟩
        rcases bind_eq_ok.mp hs with ⟨a', ha, hs⟩
        rcases bind_eq_ok.mp hs with ⟨b', hb, hs⟩
        -- Were the exponent the least word, raising would have broken down.
        have hleast := raise_isOk.mp ⟨s, hs⟩
        exact ⟨fun hover => hleast (Except.ok.inj (hb.symm.trans hover)), ⟨a', ha⟩, ⟨b', hb⟩⟩
      · rintro ⟨hover, ⟨a', ha⟩, ⟨b', hb⟩⟩
        have hleast : b' ≠ .rat Word.least := fun h => hover (hb.trans (congrArg Except.ok h))
        rcases raise_isOk.mpr hleast with ⟨s, hs⟩
        exact ⟨s, bind_eq_ok.mpr ⟨a', ha, bind_eq_ok.mpr ⟨b', hb, hs⟩⟩⟩

-- No number is too large for an exponent that is left alone, the least word apart.
example : (Expr.pow (.rat 2) (.rat (-2 ^ 63 - 1))).simplify =
    .ok (.pow (.rat 2) (.rat (-2 ^ 63 - 1))) := by decide +kernel

example : (Expr.pow (.rat 2) (.rat (-2 ^ 63))).simplify = .error .modulus := by decide +kernel

end Subtrees

end Expr

end ExactCalc
