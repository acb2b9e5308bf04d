import ExactCalc.Expr

/-!
# Readable Text of an Expression

The text of an expression with no more brackets than it takes to read it back.

Each text has a level, the tightness of its outermost operation, and an operand
is bracketed when its level is below what its place requires. A product of a
rational and something atomic is written as a fraction, `3*π/2`; a difference
from zero as a sign; and a sum or difference takes over the sign of its second
operand.

## Main definitions

* `Expr.Level`: How tightly the outermost operation of a text binds.
* `Expr.write`: The text of a tree and its level.
* `Expr.readable`: The text alone.
-/

namespace ExactCalc

namespace Expr

/-- How tightly the outermost operation of a text binds, loosest first. -/
inductive Level where
  | sum
  | product
  | sign
  | power
  | atom
  deriving DecidableEq, Repr

/-- The place of a level among all. -/
def Level.rank : Level → Nat
  | .sum => 1
  | .product => 2
  | .sign => 3
  | .power => 4
  | .atom => 5

/-- The decimal text of a natural number. -/
def natText (n : Nat) : List Char := n.repr.toList

/-- The decimal text of an integer. -/
def intText (n : Int) : List Char :=
  if n < 0 then '-' :: natText n.natAbs else natText n.natAbs

/-- A text in brackets. -/
def bracketed (s : List Char) : List Char := '(' :: s ++ [')']

/-- An operand in a place that requires at least a given level. -/
def operandText (required : Level) (operand : List Char × Level) : List Char :=
  if operand.2.rank < required.rank then bracketed operand.1 else operand.1

/-- The text of a number. -/
def writeRat (q : Rat) : List Char × Level :=
  if Rational.isWhole q then (intText q.num, if q.num < 0 then .sign else .atom)
  else (intText q.num ++ '/' :: natText q.den, .product)

/-- The text of a number times something atomic: the numerator in front unless
    it is one, the denominator behind unless it is one. -/
def writeScaled (c : Rat) (x : List Char) : List Char × Level :=
  let sign : List Char := if c.num < 0 then ['-'] else []
  let size := c.num.natAbs
  if size = 0 then (['0'], .atom)
  else
    let core := if size = 1 then x else natText size ++ '*' :: x
    if Rational.isWhole c then
      (sign ++ core, if size ≠ 1 then .product else if c.num < 0 then .sign else .atom)
    else (sign ++ core ++ '/' :: natText c.den, .product)

/-- Whether a radicand stands without brackets behind the sign of the root. -/
def isBareRadicand (x : Expr) (level : Level) : Bool :=
  match x with
  | rat q => (!(q.num < 0) && Rational.isWhole q) || level == .atom
  | sqrt _ | abs _ => false
  | _ => level == .atom

/-- A sum or a difference. The second operand is bracketed if it is one itself,
    and otherwise its own sign turns the operation round. -/
def writeSum (left right : List Char × Level) (sign flipped : Char) : List Char × Level :=
  let a := operandText .sum left
  if right.2 = .sum then (a ++ sign :: bracketed right.1, .sum)
  else
    match right.1 with
    | '-' :: rest => (a ++ flipped :: rest, .sum)
    | b => (a ++ sign :: b, .sum)

/-- The text of a tree and its level. -/
def write : Expr → List Char × Level
  | rat q => writeRat q
  | pi => (['π'], .atom)
  | var name => (name.toList, .atom)
  | sqrt x =>
    let (s, level) := x.write
    (if isBareRadicand x level then '√' :: s else '√' :: bracketed s, .atom)
  | abs x => (['a', 'b', 's'] ++ bracketed x.write.1, .atom)
  | pow a b => (operandText .atom a.write ++ '^' :: operandText .power b.write, .power)
  | mul a b =>
    let right := b.write
    match a, right.2 with
    | rat c, .atom => writeScaled c right.1
    | _, _ => (operandText .product a.write ++ '*' :: operandText .sign right, .product)
  | div a b => (operandText .product a.write ++ '/' :: operandText .sign b.write, .product)
  | add a b => writeSum a.write b.write '+' '-'
  | sub a b =>
    if a.isZero then ('-' :: operandText .sign b.write, .sign)
    else writeSum a.write b.write '-' '+'

/-- The text of a tree. -/
def readable (e : Expr) : String := String.ofList e.write.1

end Expr

end ExactCalc
