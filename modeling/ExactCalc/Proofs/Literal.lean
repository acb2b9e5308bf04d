import ExactCalc.Literal
import ExactCalc.Proofs.Lexeme

/-!
# Spelling Literals

Which texts a literal can be typed as, character by character.

`Fits` says which characters go on with a number, and it looks back at one
character only: the letter of a power of ten stands behind a digit or a point,
and a sign behind that letter. So whether a text is the text of a literal can be
told from left to right, and what the builder collects is always such a text.

## Main definitions

* `Builder.takesSign`: The sign of a power of ten.
* `Fits`, `Trails`: Which characters go on with a number, and with one that
  holds a refused digit.
* `Chained`: Texts whose every character fits the one before.

## Theorems

* `canContinue_eq`: When a lexeme goes on with the open literal, by its kind.
* `chained_append_singleton`: One more character at the end.
-/

namespace ExactCalc

namespace Literal

namespace Builder

/-- Whether the lexeme is the sign of the power of ten that is still open. -/
def takesSign (b : Builder) (l : Lexeme) : Bool :=
  !b.isHex && (l.text == ['+'] || l.text == ['-']) && b.endsInExponent

/-- Whether a lexeme that is no such sign goes on with the open literal. -/
def goesOn (b : Builder) (l : Lexeme) : Bool :=
  match l.kind with
  | .marker => !b.isOpen
  | .separator => b.isOpen
  | .digit => l.text.head?.any b.active.accepts
  | .point | .exponent => true
  | _ => false

/-- When a lexeme goes on with the open literal, by its kind. -/
theorem canContinue_eq (b : Builder) (l : Lexeme) :
    b.canContinue l = (b.goesOn l || b.takesSign l) := by
  unfold canContinue takesSign goesOn
  -- Everything but the kind is a truth value now.
  rcases l with ⟨kind, text, start⟩
  generalize b.isOpen = o
  generalize hfits : text.head?.any b.active.accepts = fits
  cases kind <;> cases o <;> simp only [] <;> cases fits <;> rfl

/-- The sign of a power of ten comes right after its letter, and not in base
    sixteen. -/
theorem takesSign_eq_true {b : Builder} {l : Lexeme} :
    b.takesSign l = true ↔ b.active ≠ .hex ∧ (l.text = ['+'] ∨ l.text = ['-']) ∧
      ∃ body, b.current = some body ∧ body.getLast? = some exponentLetter := by
  have hexp : b.endsInExponent = true ↔
      ∃ body, b.current = some body ∧ body.getLast? = some exponentLetter := by
    unfold endsInExponent
    rcases b.current with _ | body
    · simp only [Bool.false_eq_true, reduceCtorEq, false_and, exists_false]
    · simp only [beq_iff_eq, Option.some.injEq, exists_eq_left']
  rw [takesSign, Bool.and_eq_true, Bool.and_eq_true, Bool.or_eq_true, beq_iff_eq, beq_iff_eq,
    Bool.not_eq_true', hexp, isHex, beq_eq_false_iff_ne, and_assoc]

theorem takesSign_of_current_eq_none {b : Builder} {l : Lexeme} (h : b.current = none) :
    b.takesSign l = false := by
  rw [takesSign, endsInExponent, h, Bool.and_false]

/-- A builder that holds nothing closes no literal, let alone an empty one. -/
theorem digits_of_new (session : Radix) :
    ∀ literal, (new session).finish.1 = some literal → literal.digits ≠ [] := by
  intro literal h
  exact absurd (show none = some literal from h)
    (by simp)

theorem finish_of_current_eq_none {b : Builder} (h : b.current = none) : b.finish = (none, b) := by
  rw [finish, h]

theorem finish_of_current_eq_some {b : Builder} {body : List Char} (h : b.current = some body) :
    b.finish = (some ⟨b.active, b.explicit, body⟩, new b.session) := by
  rw [finish, h]

/-- A marker never belongs to a literal that is open already. -/
theorem current_of_marker {b : Builder} {l : Lexeme} (hkind : l.kind = .marker)
    (hlen : 2 ≤ l.text.length) (h : b.canContinue l = true) : b.current = none := by
  have hsign : b.takesSign l = false := by
    have hlong : ∀ c : Char, (l.text == [c]) = false := by
      intro c
      rw [beq_eq_false_iff_ne]
      intro h
      rw [h] at hlen
      exact absurd hlen (Nat.not_succ_le_self 1)
    rw [takesSign, hlong, hlong, Bool.or_self, Bool.and_false, Bool.false_and]
  rw [canContinue_eq, hsign, Bool.or_false, goesOn, hkind] at h
  simp only [Bool.not_eq_true', isOpen, Option.isSome_eq_false_iff, Option.isNone_iff_eq_none] at h
  exact h

end Builder

/-- A character goes on with a number of the base. A power of ten and its sign
    stand in no number of base sixteen, where the letter is a digit. -/
inductive Fits (r : Radix) (prev : Option Char) (c : Char) : Prop where
  | digit (h : r.accepts c = true)
  | point (h : c = '.')
  | exponent (hr : r ≠ .hex) (h : c = exponentLetter) (hprev : Lexeme.endsMantissa prev = true)
  | sign (hr : r ≠ .hex) (h : c = '+' ∨ c = '-') (hprev : prev = some exponentLetter)

/-- A character goes on with a number that holds a refused digit. -/
inductive Trails (prev : Option Char) (c : Char) : Prop where
  | digit (h : c.isDigit = true)
  | point (h : c = '.')
  | exponent (h : c = exponentLetter) (hprev : Lexeme.endsMantissa prev = true)

/-- Every character of a text fits the one before it. -/
def Chained (fits : Option Char → Char → Prop) : Option Char → List Char → Prop
  | _, [] => True
  | prev, c :: cs => fits prev c ∧ Chained fits (some c) cs

theorem chained_append {fits : Option Char → Char → Prop} {prev : Option Char}
    {as bs : List Char} :
    Chained fits prev (as ++ bs) ↔
      Chained fits prev as ∧ Chained fits (as.getLast?.or prev) bs := by
  induction as generalizing prev with
  | nil => rw [List.nil_append, List.getLast?_nil, Option.none_or, Chained, true_and]
  | cons a as ih =>
      rw [List.cons_append, Chained, Chained, ih, and_assoc]
      cases as with
      | nil => rfl
      | cons b bs => rw [List.getLast?_cons_cons]; rfl

theorem chained_append_singleton {fits : Option Char → Char → Prop} {prev : Option Char}
    {as : List Char} {c : Char} :
    Chained fits prev (as ++ [c]) ↔ Chained fits prev as ∧ fits (as.getLast?.or prev) c := by
  rw [chained_append, Chained, Chained, and_true]

theorem Fits.not_separator {r : Radix} {prev : Option Char} {c : Char} (h : Fits r prev c) :
    Numeral.isSeparator c = false := by
  cases h with
  | digit h => exact Radix.isSeparator_of_accepts h
  | point h => rw [h]; decide
  | exponent _ h => rw [h]; decide
  | sign _ h => rcases h with rfl | rfl <;> decide

/-- What starts a number also goes on with one. -/
theorem Chained.of_none {r : Radix} {ds : List Char} (h : Chained (Fits r) none ds)
    (prev : Option Char) : Chained (Fits r) prev ds := by
  cases ds with
  | nil => trivial
  | cons c cs =>
      refine ⟨?_, h.2⟩
      cases h.1 with
      | digit h => exact .digit h
      | point h => exact .point h
      | exponent _ _ hprev => exact absurd hprev Bool.false_ne_true
      | sign _ _ hprev => cases hprev

/-- A decimal number is one of any base that has its digits, base sixteen apart. -/
theorem Chained.of_accepts {r : Radix} {prev : Option Char} {ds : List Char}
    (h : Chained (Fits .dec) prev ds) (hr : r ≠ .hex)
    (hds : ∀ c ∈ ds, c.isDigit = true → r.accepts c = true) : Chained (Fits r) prev ds := by
  induction ds generalizing prev with
  | nil => trivial
  | cons c cs ih =>
      refine ⟨?_, ih h.2 (fun d hd => hds d (List.mem_cons_of_mem c hd))⟩
      cases h.1 with
      | digit h =>
          have hdigit := Radix.isDigit_of_accepts (by decide) h
          exact .digit (hds c List.mem_cons_self hdigit)
      | point h => exact .point h
      | exponent _ h hprev => exact .exponent hr h hprev
      | sign _ h hprev => exact .sign hr h hprev

end Literal

end ExactCalc
