import ExactCalc.Engine.Exact

/-!
# Scripted Engines

An engine that follows a script and leaves the rest to the exact engine.

The script has rules for particular expressions, for one operation or for any: a
rule gives a result, lets the evaluation or the rendering fail, or lets the
engine break down. One expression stands for work that takes its time: as long
as a gate is closed it has to wait, and when it gets through it ends at once, by
being interrupted if the calculation was called off in the meantime.

## Main definitions

* `Scripted.Rule`, `Scripted.Script`: What is to happen.
* `Scripted.State`: The gate, the calls counted, and the messages of the exact
  engine.
* `Scripted.engine`: The engine.
-/

namespace ExactCalc

namespace Scripted

/-- What happens with an expression. -/
inductive Rule where
  | result (text : String)
  | failure (e : EvalError)
  /-- The evaluation succeeds, but its result cannot be rendered. -/
  | renderFailure (e : EvalError)
  | breakdown
  deriving DecidableEq, Repr

/-- What happens with the messages. -/
inductive Messages where
  /-- Those of the exact engine are handed over. -/
  | exact
  /-- The same ones are handed over each time. -/
  | always (ms : List Message)
  | failure (e : EvalError)
  deriving DecidableEq, Repr

/-- What is to happen. -/
structure Script where
  /-- The rules, each for an expression and for one operation or any. -/
  rules : List (Option Operation × String × Rule)
  messages : Messages
  deriving DecidableEq, Repr

/-- The rule for an expression; one for the very operation comes first. -/
def Script.rule? (s : Script) (op : Operation) (expression : String) : Option Rule :=
  let of (o : Option Operation) := s.rules.find? fun r => r.1 = o && r.2.1 == expression
  ((of (some op)).orElse fun _ => of none).map (·.2.2)

/-- The state of a scripted engine. -/
structure State where
  gateClosed : Bool
  /-- How many evaluations have begun and got past the gate. -/
  calls : Nat
  /-- The messages that the exact engine keeps. -/
  messages : List Message
  deriving DecidableEq, Repr

/-- The gate is open, and nothing has been evaluated. -/
def State.start : State := ⟨false, 0, []⟩

/-- The expression that waits at the gate. -/
def slowExpression : String := "bloque"

/-- The result of the expression that waits at the gate. -/
def slowResult : String := "fini"

/-- The results: text, the failure to render one, or a result of the exact
    engine. -/
inductive Result where
  | text (t : String)
  | failing (e : EvalError)
  | exact (d : Exact.Deferred)

/-- The outcome of a call that leaves no record. -/
def answer {α : Type} (r : Engine.Reply α) (s : State) : Engine.Call State α := ⟨r, s, []⟩

/-- The outcome of a call to the exact engine. -/
def pass {α β : Type} (f : α → β) (c : Engine.Call (List Message) α) (s : State) :
    Engine.Call State β :=
  let reply := match c.reply with
    | .value a => .value (f a)
    | .failure e => .failure e
    | .breakdown => .breakdown
  ⟨reply, { s with messages := c.state }, c.log⟩

/-- A scripted engine. -/
def engine (script : Script) (settings : Settings) (registry : Registry) : Engine State where
  Result := Result
  waits s expression := s.gateClosed && expression == slowExpression
  evaluate expression op cancelled s :=
    let s := { s with calls := s.calls + 1 }
    if expression = slowExpression then
      answer (if cancelled then .failure .interrupted else .value (.text slowResult)) s
    else
      match script.rule? op expression with
      | some (.result t) => answer (.value (.text t)) s
      | some (.failure e) => answer (.failure e) s
      | some (.renderFailure e) => answer (.value (.failing e)) s
      | some .breakdown => answer .breakdown s
      | none =>
        pass .exact ((Exact.engine settings registry).evaluate expression op cancelled s.messages) s
  render r cancelled s :=
    match r with
    | .text t => answer (.value t) s
    | .failing e => answer (.failure e) s
    | .exact d => pass id ((Exact.engine settings registry).render d cancelled s.messages) s
  drain s :=
    match script.messages with
    | .exact => pass id ((Exact.engine settings registry).drain s.messages) s
    | .always ms => answer (.value ms) s
    | .failure e => answer (.failure e) s

end Scripted

end ExactCalc
