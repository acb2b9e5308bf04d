import ExactCalc.Radix
import ExactCalc.Word

/-!
# Failures of an Evaluation

Why an expression has no value, as causes; the wording of each cause is decided
here and nowhere else.

An interruption is listed among the failures because it ends an evaluation like
one, though it says nothing against the expression. A breakdown is not: it has no
wording, because nothing is left that could tell of it.

## Main definitions

* `ReadingFault`: What makes a text or a row of tokens unreadable.
* `ArithmeticFault`: What has no value although it can be read.
* `EvalError`: Everything that can end an evaluation early.
* `EvalError.message`: The wording.
* `Stop`: An error or a breakdown.
-/

namespace ExactCalc

/-- What makes a text, or a row of tokens, no expression. -/
inductive ReadingFault where
  | unexpectedCharacter (c : Char)
  | secondPoint
  | numberWithoutDigits
  | exponentWithoutDigits
  | unmatchedClosing
  | unclosedGroup
  | malformed
  | missingArgument (function : String)
  | strayBracket
  | emptyText
  /-- The definition of a named constant is unreadable for a reason of its own. -/
  | badDefinition (name : String) (fault : ReadingFault)
  /-- A fault that another engine words itself. -/
  | other (text : String)
  deriving DecidableEq, Repr

/-- The wording of a reading fault. -/
def ReadingFault.message : ReadingFault → String
  | .unexpectedCharacter c => "caractère inattendu: '" ++ c.toString ++ "'"
  | .secondPoint => "deux points dans un nombre"
  | .numberWithoutDigits => "nombre invalide"
  | .exponentWithoutDigits => "exposant incomplet"
  | .unmatchedClosing => "parenthèse fermante sans ouvrante"
  | .unclosedGroup => "parenthèses non fermées"
  | .malformed => "expression invalide"
  | .missingArgument function => function ++ " sans argument"
  | .strayBracket => "parenthèse inattendue en RPN"
  | .emptyText => "expression vide"
  | .badDefinition name fault => "valeur de " ++ name ++ " invalide : " ++ fault.message
  | .other text => text

/-- What has no value although it can be read. -/
inductive ArithmeticFault where
  | divisionByZero
  | negativeRoot
  /-- An exponent that is neither whole nor half a whole number. -/
  | fractionalExponent
  /-- An exponent with a root or `π` in it that is no whole number. -/
  | nonIntegerExponent
  /-- A named constant is defined through itself. -/
  | circularDefinition (name : String)
  /-- A fault that another engine words itself. -/
  | other (text : String)
  deriving DecidableEq, Repr

/-- The wording of an arithmetic fault. -/
def ArithmeticFault.message : ArithmeticFault → String
  | .divisionByZero => "division par zéro"
  | .negativeRoot => "racine carrée d’un nombre négatif"
  | .fractionalExponent => "exposant fractionnaire non pris en charge"
  | .nonIntegerExponent => "exposant non entier"
  | .circularDefinition name => "définition circulaire : " ++ name
  | .other text => text

/-- What ends an evaluation early. -/
inductive EvalError where
  /-- The expression cannot be read; the position counts in its normal form. -/
  | unreadable (fault : ReadingFault) (position : Option Nat)
  | arithmetic (fault : ArithmeticFault)
  /-- The expression is too deep, or a number in it too large. -/
  | tooComplex
  | digitOutsideRadix (digit : Char) (radix : Radix)
  | undefinedVariable (name : String)
  /-- The evaluation was called off, which is no fault of the expression. -/
  | interrupted
  | internal (text : String)
  deriving DecidableEq, Repr

/-- The wording of an error. -/
def EvalError.message : EvalError → String
  | .unreadable fault _ => fault.message
  | .arithmetic fault => fault.message
  | .tooComplex => "expression trop complexe"
  | .digitOutsideRadix digit radix =>
    "chiffre '" ++ digit.toString ++ "' invalide en base " ++ radix.name
  | .undefinedVariable name => "variable non définie : " ++ name
  | .interrupted => "évaluation interrompue"
  | .internal text => "erreur interne du moteur : " ++ text

/-- What ends a calculation early: an error to tell of, or a breakdown. -/
inductive Stop where
  | failure (e : EvalError)
  | breakdown (o : Overflow)
  deriving DecidableEq, Repr

/-- A calculation that may break down, as one that may stop. -/
def Stop.ofChecked {α : Type} (r : Checked α) : Except Stop α := r.mapError .breakdown

end ExactCalc
