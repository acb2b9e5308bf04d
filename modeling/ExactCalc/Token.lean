import ExactCalc.EvalError
import ExactCalc.Lexeme
import ExactCalc.Rational

/-!
# Tokens of an Expression

The normal form of an expression cut into tokens.

A number is a mantissa and, unless its base is sixteen, an optional power of
ten. The mantissa is the longest run of points and digit candidates; a candidate
that the base refuses is an error rather than the end of the number, so that a
number of one base is never read as two.

## Main definitions

* `Token`: Numbers, names, signs and brackets.
* `Token.text`, `Token.listing`: Their text.
* `Token.Mantissa.read`, `Token.readExponent`, `Token.readNumber`: Numbers.
* `Token.tokenize`: The tokens of a text.

## Theorems

* `tokenize_nil`: The empty text has no tokens.
-/

namespace ExactCalc

/-- A token of an expression. -/
inductive Token where
  | num (value : Rat)
  | pi
  /-- A name, of a function or of a variable. -/
  | ident (name : String)
  | plus
  | minus
  /-- The minus sign in front of a single operand. -/
  | neg
  | star
  | slash
  | caret
  | lparen
  | rparen
  deriving DecidableEq

namespace Token

/-- The text of a token in a listing. -/
def text : Token → String
  | .num value => Rational.text value
  | .pi => "π"
  | .ident name => name
  | .plus => "+"
  | .minus => "-"
  | .neg => "neg"
  | .star => "*"
  | .slash => "/"
  | .caret => "^"
  | .lparen => "("
  | .rparen => ")"

/-- The text of a row of tokens. -/
def listing (ts : List Token) : String :=
  String.intercalate " " (ts.map text)

/-- The largest power of ten a number may be written with. -/
def largestExponent : Nat := 10000

/-- Whether a character has to be judged as a digit of base `r`: the decimal
    digits in every base, letters in base sixteen only. -/
def isDigitCandidate (r : Radix) (c : Char) : Bool :=
  c.isDigit || (r == .hex && Radix.hex.accepts c)

/-- What has been read of a mantissa. -/
structure Mantissa where
  /-- The digits so far, as a whole number. -/
  value : Nat
  /-- How many digits there are. -/
  count : Nat
  /-- How many of them follow the point, once there is one. -/
  places : Option Nat
  deriving DecidableEq, Repr

namespace Mantissa

/-- Nothing read. -/
def empty : Mantissa := ⟨0, 0, none⟩

/-- One more digit. -/
def push (r : Radix) (m : Mantissa) (c : Char) : Mantissa :=
  ⟨m.value * r.size + Numeral.digitValue c, m.count + 1, m.places.map (· + 1)⟩

/-- Reads a run of points and digit candidates that starts at `pos`. -/
def read (r : Radix) (pos : Nat) (m : Mantissa) : List Char → Except EvalError Mantissa
  | [] => .ok m
  | c :: cs =>
    if c = '.' then
      if m.places.isSome then .error (.unreadable .secondPoint (some pos))
      else read r (pos + 1) { m with places := some 0 } cs
    else if r.accepts c then read r (pos + 1) (m.push r c) cs
    else .error (.digitOutsideRadix c r)

/-- The number the mantissa denotes. -/
def toRat (r : Radix) (m : Mantissa) : Rat :=
  mkRat m.value (Nat.pow r.size (m.places.getD 0))

end Mantissa

/-- A power of ten with its sign, read just after its letter, which stands at
    `pos`; and how many characters it takes. -/
def readExponent (pos : Nat) (cs : List Char) : Except EvalError (Int × Nat) :=
  let (negative, signs, rest) := match cs with
    | '-' :: rest => (true, 1, rest)
    | '+' :: rest => (false, 1, rest)
    | rest => (false, 0, rest)
  let ds := rest.takeWhile Char.isDigit
  if ds.isEmpty then .error (.unreadable .exponentWithoutDigits (some pos))
  else
    let n := Numeral.value 10 ds
    if n ≤ largestExponent then .ok (if negative then -(n : Int) else n, signs + ds.length)
    else .error .tooComplex

/-- The number in base `r` at the front of a text that starts at `pos`, and how
    many characters it takes. -/
def readNumber (r : Radix) (pos : Nat) (cs : List Char) : Except EvalError (Rat × Nat) :=
  let run := cs.takeWhile fun c => c == '.' || isDigitCandidate r c
  match Mantissa.read r pos .empty run with
  | .error e => .error e
  | .ok m =>
    if m.count = 0 then .error (.unreadable .numberWithoutDigits (some pos))
    else
      match cs.drop run.length with
      | c :: rest =>
        if r ≠ .hex ∧ c = exponentLetter then
          (readExponent (pos + run.length) rest).map fun (n, length) =>
            (m.toRat r * Rational.powInt 10 n, run.length + 1 + length)
        else .ok (m.toRat r, run.length)
      | [] => .ok (m.toRat r, run.length)

/-- The token that a single character is on its own. -/
def ofChar? : Char → Option Token
  | '(' => some .lparen
  | ')' => some .rparen
  | '+' => some .plus
  | '-' => some .minus
  | '*' => some .star
  | '/' => some .slash
  | '^' => some .caret
  | 'π' => some .pi
  | '√' => some (.ident "sqrt")
  | _ => none

/-- The token a name stands for. -/
def ofName (name : List Char) : Token :=
  if name = ['p', 'i'] then .pi else .ident (String.ofList name)

/-- The tokens of a text that starts at `pos`. -/
def tokenizeFrom (pos : Nat) : List Char → Except EvalError (List Token)
  | [] => .ok []
  | c :: cs =>
    if Text.isBlank c then tokenizeFrom (pos + 1) cs
    else
      match ofChar? c with
      | some t => (tokenizeFrom (pos + 1) cs).map (t :: ·)
      | none =>
        match h : Radix.splitLongMarker? (c :: cs) with
        | some (r, rest) =>
          let pos := pos + r.marker.length
          match readNumber r pos rest with
          | .error e => .error e
          | .ok (value, n) => (tokenizeFrom (pos + n) (rest.drop n)).map (.num value :: ·)
        | none =>
          if c.isDigit || c == '.' then
            match readNumber .dec pos (c :: cs) with
            | .error e => .error e
            | .ok (value, n) =>
              (tokenizeFrom (pos + n) (cs.drop (n - 1))).map (.num value :: ·)
          else if isNameStart c then
            let tail := cs.takeWhile isNameChar
            (tokenizeFrom (pos + 1 + tail.length) (cs.drop tail.length)).map
              (ofName (c :: tail) :: ·)
          else .error (.unreadable (.unexpectedCharacter c) (some pos))
termination_by cs => cs.length
decreasing_by
  · simp
  · simp
  · have := Radix.length_of_splitLongMarker? h
    simp only [List.length_drop, List.length_cons] at this ⊢
    omega
  · simp only [List.length_drop, List.length_cons]; omega
  · simp only [List.length_drop, List.length_cons]; omega

/-- The tokens of a text. -/
def tokenize (cs : List Char) : Except EvalError (List Token) :=
  tokenizeFrom 0 cs

/-- The empty text has no tokens. -/
@[simp] theorem tokenize_nil : tokenize [] = .ok [] := by
  rw [tokenize, tokenizeFrom]

end Token

end ExactCalc
