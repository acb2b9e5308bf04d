import ExactCalc.Token

/-!
# Postfix Order

A row of tokens put into postfix order by a yard of waiting operators.

An operand goes straight out. An operator waits, and goes out before a later
one that binds no tighter. A function waits for its operand: it goes out with
the bracket that closes its argument, or before the next operator when its
argument is a single operand, since it binds tightest of all. A minus sign met
where an operand is expected is the sign of that operand; a plus sign there
counts for nothing.

## Main definitions

* `Postfix.precedence`, `Postfix.leaves`: How tightly operators bind.
* `Postfix.Yard`, `Postfix.Yard.step`: The tokens out and waiting.
* `Postfix.ofTokens`: The whole row.

## Theorems

* `out_release`: Releasing waiting operators only adds to what is out.
-/

namespace ExactCalc

namespace Postfix

/-- How tightly an operator binds; an opening bracket holds everything back. -/
def precedence : Token → Nat
  | .plus | .minus => 1
  | .star | .slash => 2
  | .neg => 3
  | .caret => 4
  | .ident _ => 5
  | _ => 0

/-- Whether a name is that of a function. -/
def isFunctionName (name : String) : Bool :=
  functionNames.contains name.toList

/-- Whether a token calls a function. -/
def isFunction : Token → Bool
  | .ident name => isFunctionName name
  | _ => false

/-- Whether a waiting operator leaves before the operator that arrives. Powers
    group to the right, all others to the left. -/
def leaves (arriving waiting : Token) : Bool :=
  if arriving = .caret then precedence waiting > precedence arriving
  else precedence waiting ≥ precedence arriving

/-- The tokens that have gone out, last first, the operators that wait, last
    first, and whether an operand has just ended. -/
structure Yard where
  out : List Token
  waiting : List Token
  afterOperand : Bool
  deriving DecidableEq

namespace Yard

/-- Nothing out and nothing waiting. -/
def empty : Yard := ⟨[], [], false⟩

/-- Sends out the waiting operators that leave before `t`. -/
def release (t : Token) (out : List Token) : List Token → List Token × List Token
  | [] => (out, [])
  | w :: ws => if leaves t w then release t (w :: out) ws else (out, w :: ws)

/-- Sends out the waiting operators back to the last opening bracket, which
    disappears. -/
def releaseGroup (out : List Token) : List Token → Option (List Token × List Token)
  | [] => none
  | w :: ws => if w = .lparen then some (out, ws) else releaseGroup (w :: out) ws

/-- A token that waits, an operand being expected after it. -/
def wait (y : Yard) (t : Token) : Yard :=
  { y with waiting := t :: y.waiting, afterOperand := false }

/-- A token that goes straight out and ends an operand. -/
def send (y : Yard) (t : Token) : Yard :=
  { y with out := t :: y.out, afterOperand := true }

/-- An operator between two operands. -/
def operate (y : Yard) (t : Token) : Yard :=
  let (out, waiting) := release t y.out y.waiting
  ⟨out, t :: waiting, false⟩

/-- A closing bracket, and with it the function whose argument it closes. -/
def close (y : Yard) : Except EvalError Yard :=
  match releaseGroup y.out y.waiting with
  | none => .error (.unreadable .unmatchedClosing none)
  | some (out, f :: ws) =>
    if isFunction f then .ok ⟨f :: out, ws, true⟩ else .ok ⟨out, f :: ws, true⟩
  | some (out, []) => .ok ⟨out, [], true⟩

/-- One more token. -/
def step (y : Yard) (t : Token) : Except EvalError Yard :=
  match t with
  | .num _ | .pi => .ok (y.send t)
  | .ident name => .ok (if isFunctionName name then y.wait t else y.send t)
  | .lparen | .neg => .ok (y.wait t)
  | .rparen => y.close
  | .minus => .ok (if y.afterOperand then y.operate t else { y with waiting := .neg :: y.waiting })
  | .plus => .ok (if y.afterOperand then y.operate t else y)
  | .star | .slash | .caret => .ok (y.operate t)

/-- Sends out all that waits. -/
def drain (out : List Token) : List Token → Except EvalError (List Token)
  | [] => .ok out
  | w :: ws => if w = .lparen then .error (.unreadable .unclosedGroup none) else drain (w :: out) ws

/-- Several more tokens, one after the other. -/
def run (y : Yard) : List Token → Except EvalError Yard
  | [] => .ok y
  | t :: ts =>
    match y.step t with
    | .error e => .error e
    | .ok y' => run y' ts

/-- Releasing waiting operators only adds to what is out. -/
theorem out_release (t : Token) (out ws : List Token) :
    ∃ sent, (release t out ws).1 = sent ++ out ∧ ws = sent.reverse ++ (release t out ws).2 := by
  induction ws generalizing out with
  | nil => exact ⟨[], rfl, rfl⟩
  | cons w ws ih =>
    rw [release]
    split
    · obtain ⟨sent, h₁, h₂⟩ := ih (w :: out)
      refine ⟨sent ++ [w], by simp [h₁], ?_⟩
      rw [List.reverse_append, List.append_assoc, ← h₂]
      rfl
    · exact ⟨[], rfl, rfl⟩

end Yard

/-- The postfix order of a row of tokens. -/
def ofTokens (ts : List Token) : Except EvalError (List Token) :=
  match Yard.run .empty ts with
  | .error e => .error e
  | .ok y => (Yard.drain y.out y.waiting).map List.reverse

end Postfix

end ExactCalc
