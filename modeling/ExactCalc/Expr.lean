import ExactCalc.Postfix

/-!
# Exact Expressions

Expressions as trees, without any floating-point number.

A division by zero is kept as it stands in a tree. Building a tree from postfix
order bounds its depth, so that whatever walks the tree later is bounded too.

## Main definitions

* `Expr`: Trees of rationals, `π`, variables, roots, moduli and the five
  operations.
* `Expr.depth`, `Expr.firstVariable?`: Measures of a tree.
* `Expr.listing`: The fully bracketed text.
* `Expr.substitute`: Every variable replaced by what a lookup finds.
* `Expr.ofPostfix`: The tree of a row in postfix order.

## Theorems

* `isZero_iff`: The tree that is zero is the number zero.
* `depth_pos`: No tree is without depth.
-/

namespace ExactCalc

/-- An exact expression. -/
inductive Expr where
  | rat (q : Rat)
  | pi
  | var (name : String)
  | sqrt (x : Expr)
  | abs (x : Expr)
  | pow (base exponent : Expr)
  | add (a b : Expr)
  | sub (a b : Expr)
  | mul (a b : Expr)
  | div (a b : Expr)
  deriving DecidableEq, Inhabited

namespace Expr

/-- The depth of a tree; a leaf has depth one. -/
def depth : Expr → Nat
  | rat _ | pi | var _ => 1
  | sqrt x | abs x => x.depth + 1
  | pow a b | add a b | sub a b | mul a b | div a b => max a.depth b.depth + 1

/-- The first variable of a tree, from left to right. -/
def firstVariable? : Expr → Option String
  | var name => some name
  | rat _ | pi => none
  | sqrt x | abs x => x.firstVariable?
  | pow a b | add a b | sub a b | mul a b | div a b => a.firstVariable? <|> b.firstVariable?

/-- Whether some variable occurs in a tree. -/
def hasVariable (e : Expr) : Bool := e.firstVariable?.isSome

/-- Whether a tree is the number zero. -/
def isZero : Expr → Bool
  | rat q => q == 0
  | _ => false

/-- The number a tree is, if it is one. -/
def number? : Expr → Option Rat
  | rat q => some q
  | _ => none

/-- Whether a tree is a number. -/
def isRat (e : Expr) : Bool := e.number?.isSome

/-- The text of a tree with every operation in brackets. -/
def listing : Expr → String
  | rat q => Rational.text q
  | pi => "π"
  | var name => name
  | sqrt x => "√(" ++ x.listing ++ ")"
  | abs x => "abs(" ++ x.listing ++ ")"
  | pow a b => "(" ++ a.listing ++ ")^(" ++ b.listing ++ ")"
  | add a b => "(" ++ a.listing ++ "+" ++ b.listing ++ ")"
  | sub a b => "(" ++ a.listing ++ "-" ++ b.listing ++ ")"
  | mul a b => "(" ++ a.listing ++ "*" ++ b.listing ++ ")"
  | div a b => "(" ++ a.listing ++ "/" ++ b.listing ++ ")"

/-- Replaces every variable that the lookup finds a tree for, from left to
    right, and stops at the first lookup that fails. -/
def substitute {m : Type → Type} [Monad m] (lookup : String → m (Option Expr)) : Expr → m Expr
  | rat q => pure (rat q)
  | pi => pure pi
  | var name => do
    let found ← lookup name
    pure (found.getD (var name))
  | sqrt x => sqrt <$> x.substitute lookup
  | abs x => abs <$> x.substitute lookup
  | pow a b => do
    let a ← a.substitute lookup
    let b ← b.substitute lookup
    pure (pow a b)
  | add a b => do
    let a ← a.substitute lookup
    let b ← b.substitute lookup
    pure (add a b)
  | sub a b => do
    let a ← a.substitute lookup
    let b ← b.substitute lookup
    pure (sub a b)
  | mul a b => do
    let a ← a.substitute lookup
    let b ← b.substitute lookup
    pure (mul a b)
  | div a b => do
    let a ← a.substitute lookup
    let b ← b.substitute lookup
    pure (div a b)

/-- The function a name calls, applied to its argument. -/
def call (name : String) (x : Expr) : Expr :=
  if name = "abs" then abs x else sqrt x

/-- The operation an operator stands for. -/
def operation (t : Token) (a b : Expr) : Expr :=
  match t with
  | .plus => add a b
  | .minus => sub a b
  | .star => mul a b
  | .slash => div a b
  | _ => pow a b

/-- Takes one token of a postfix row: the trees built so far, last first, each
    with its depth. The sign of an operand is subtraction from zero. -/
def reduce (stack : List (Expr × Nat)) (t : Token) :
    Except EvalError ((Expr × Nat) × List (Expr × Nat)) :=
  match t with
  | .num q => .ok ((rat q, 1), stack)
  | .pi => .ok ((pi, 1), stack)
  | .plus | .minus | .star | .slash | .caret =>
    match stack with
    | (b, db) :: (a, da) :: rest => .ok ((operation t a b, max da db + 1), rest)
    | _ => .error (.unreadable .malformed none)
  | .neg =>
    match stack with
    | (x, d) :: rest => .ok ((sub (rat 0) x, d + 1), rest)
    | [] => .error (.unreadable .malformed none)
  | .ident name =>
    if Postfix.isFunctionName name then
      match stack with
      | (x, d) :: rest => .ok ((call name x, d + 1), rest)
      | [] => .error (.unreadable (.missingArgument name) none)
    else .ok ((var name, 1), stack)
  | .lparen | .rparen => .error (.unreadable .strayBracket none)

/-- Takes a whole postfix row, refusing any tree deeper than the bound. -/
def reduceAll (bound : Nat) (stack : List (Expr × Nat)) :
    List Token → Except EvalError (List (Expr × Nat))
  | [] => .ok stack
  | t :: ts =>
    match reduce stack t with
    | .error e => .error e
    | .ok (top, rest) =>
      if top.2 > bound then .error .tooComplex else reduceAll bound (top :: rest) ts

/-- The tree of a row in postfix order, no deeper than the bound. -/
def ofPostfix (bound : Nat) (ts : List Token) : Except EvalError Expr :=
  match reduceAll bound [] ts with
  | .error e => .error e
  | .ok [(e, _)] => .ok e
  | .ok _ => .error (.unreadable .malformed none)

/-- The tree that is zero is the number zero. -/
@[simp] theorem isZero_iff {e : Expr} : e.isZero = true ↔ e = rat 0 := by
  cases e <;> simp [isZero]

/-- No tree is without depth. -/
theorem depth_pos (e : Expr) : 0 < e.depth := by
  cases e <;> simp [depth]

end Expr

end ExactCalc
