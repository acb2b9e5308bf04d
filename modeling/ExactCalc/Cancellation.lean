/-!
# Cancellation

Which calculations have been called off.

A calculation belongs to a sequence and holds a token, which says whether it has
been called off. Calculations of one sequence share their token as long as none
of them has been called off; after that the next one gets a fresh token, so
calling off a sequence concerns those under way and none that come later.

## Main definitions

* `Cancellation.Chain`: The token of a sequence and how many hold it.
* `Cancellations`: The chains under way and the tokens called off.
* `Cancellations.take`, `giveBack`, `cancel`, `isCancelled`: The calls.
-/

namespace ExactCalc

/-- The calculations of one sequence that are under way. -/
structure Cancellation.Chain where
  sequence : Nat
  /-- The token that the next calculation shares, unless it is called off. -/
  token : Nat
  /-- How many calculations are under way. -/
  running : Nat
  deriving DecidableEq, Repr

/-- What is under way, and what has been called off. -/
structure Cancellations where
  /-- One chain for each sequence with calculations under way. -/
  chains : List Cancellation.Chain
  /-- How many tokens have been given out; they are numbered from zero. -/
  issued : Nat
  /-- The tokens called off. -/
  calledOff : List Nat
  deriving DecidableEq, Repr

namespace Cancellations

open Cancellation

/-- Nothing under way. -/
def empty : Cancellations := ⟨[], 0, []⟩

/-- The chain of a sequence. -/
def chain? (c : Cancellations) (sequence : Nat) : Option Chain :=
  c.chains.find? (·.sequence == sequence)

/-- Whether a token has been called off. -/
def isCancelled (c : Cancellations) (token : Nat) : Bool :=
  c.calledOff.contains token

/-- Puts a chain in the place of the one of its sequence. -/
def put (c : Cancellations) (chain : Chain) : Cancellations :=
  { c with chains := chain :: c.chains.filter (·.sequence != chain.sequence) }

/-- Puts a chain with a fresh token. -/
def putFresh (c : Cancellations) (sequence running : Nat) : Nat × Cancellations :=
  (c.issued, { c with issued := c.issued + 1 }.put ⟨sequence, c.issued, running⟩)

/-- Takes a token for a calculation of a sequence. -/
def take (c : Cancellations) (sequence : Nat) : Nat × Cancellations :=
  match c.chain? sequence with
  | none => c.putFresh sequence 1
  | some chain =>
    if c.isCancelled chain.token then c.putFresh sequence (chain.running + 1)
    else (chain.token, c.put { chain with running := chain.running + 1 })

/-- Gives back the token of a calculation that has ended. -/
def giveBack (c : Cancellations) (sequence : Nat) : Cancellations :=
  match c.chain? sequence with
  | none => c
  | some chain =>
    if chain.running ≤ 1 then
      { c with chains := c.chains.filter (·.sequence != sequence) }
    else c.put { chain with running := chain.running - 1 }

/-- Calls off the calculations of a sequence, and tells whether there were
    any. -/
def cancel (c : Cancellations) (sequence : Nat) : Bool × Cancellations :=
  match c.chain? sequence with
  | none => (false, c)
  | some chain => (true, { c with calledOff := chain.token :: c.calledOff })

end Cancellations

end ExactCalc
