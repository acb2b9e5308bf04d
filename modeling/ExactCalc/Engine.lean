import ExactCalc.EvalError
import ExactCalc.Journal.Record

/-!
# Engines

What the calculator asks of whatever evaluates expressions for it.

An engine answers in two steps. Evaluating an expression gives a result whose
text is not worked out yet; rendering the result gives the text, and may still
fail. Beside that the engine keeps messages about what it did until they are
collected. An engine has a state of its own, and a call to it may break down
altogether. Before it answers it may have to wait for something outside the
calculator, and says so beforehand.

## Main definitions

* `Operation`, `Message`: What is asked for, and remarks on the answer.
* `Engine.Reply`, `Engine.Call`: The outcome of one call.
* `Engine`: The calls.
* `Engine.attempt`: Evaluating and rendering in one go.
-/

namespace ExactCalc

/-- What is done with an expression. -/
inductive Operation where
  | numeric
  | simplify
  deriving DecidableEq, Repr

/-- The name an operation is shown under. -/
def Operation.name : Operation → String
  | .numeric => "numeric"
  | .simplify => "simplify"

/-- A remark of the engine on a result. -/
structure Message where
  /-- Whether the remark is a warning rather than an information. -/
  warning : Bool
  text : String
  deriving DecidableEq, Repr

/-- How a call to an engine ends. -/
inductive Engine.Reply (α : Type) where
  | value (a : α)
  | failure (e : EvalError)
  /-- The engine broke down. -/
  | breakdown

/-- The outcome of a call: how it ends, the state of the engine afterwards, and
    what it noted in the journal. -/
structure Engine.Call (σ α : Type) where
  reply : Engine.Reply α
  state : σ
  log : List Journal.Record

/-- What evaluates expressions, with states of type `σ`. The calls that work on
    an expression are told whether the calculation has been called off. -/
structure Engine (σ : Type) where
  /-- Results whose text is not worked out yet. -/
  Result : Type
  /-- Whether an evaluation of the expression would have to wait at present. -/
  waits : σ → String → Bool
  evaluate : String → Operation → Bool → σ → Engine.Call σ Result
  render : Result → Bool → σ → Engine.Call σ String
  /-- Hands over the messages kept so far. -/
  drain : σ → Engine.Call σ (List Message)

namespace Engine

/-- Evaluates an expression and renders the result. -/
def attempt {σ : Type} (E : Engine σ) (expression : String) (op : Operation)
    (cancelled : Bool) (s : σ) : Call σ String :=
  let first := E.evaluate expression op cancelled s
  match first.reply with
  | .value r =>
    let second := E.render r cancelled first.state
    { second with log := first.log ++ second.log }
  | .failure e => ⟨.failure e, first.state, first.log⟩
  | .breakdown => ⟨.breakdown, first.state, first.log⟩

end Engine

end ExactCalc
