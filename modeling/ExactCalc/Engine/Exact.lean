import ExactCalc.Engine
import ExactCalc.Expr.Readable
import ExactCalc.FixedPoint
import ExactCalc.Registry
import ExactCalc.Settings

/-!
# The Exact Engine

The engine that works with rationals, `π`, roots and moduli and without any
floating-point number.

Evaluating an expression reads it and puts the definitions of named constants
in. The definitions are followed with a list of the names not yet being
followed, which grows shorter at each step; a name met outside that list is
defined through itself. A constant without a value stays a symbol.

Rendering simplifies the tree and writes it, either exactly or as a decimal
number that is cut off where the places end. A division by exact zero is looked
for first, because simplifying could make it disappear. Both the search and the
simplification break down where a machine integer overflows, and the engine with
them.

## Main definitions

* `Exact.Trail`: The messages kept and the journal.
* `Exact.WorkUntil`, `Exact.Work`, `Exact.Rendering`: Work that leaves a trail.
* `Exact.read`: The tree of a text.
* `Exact.resolve`: The tree with all definitions put in.
* `Exact.Deferred`, `Exact.evaluate`, `Exact.render`: The two steps.
* `Exact.engine`: The engine.

## Theorems

* `log_keep`, `mem_keep`: A message is kept, and no record is added.
-/

namespace ExactCalc

namespace Exact

/-- What the engine leaves behind beside its results. -/
structure Trail where
  /-- The messages kept, in order and without repetition. -/
  messages : List Message
  log : List Journal.Record
  deriving DecidableEq, Repr

/-- Nothing left behind. -/
def Trail.empty : Trail := ⟨[], []⟩

/-- Keeps a message, unless it is kept already. -/
def Trail.keep (t : Trail) (m : Message) : Trail :=
  if t.messages.contains m then t else { t with messages := t.messages ++ [m] }

/-- Notes a record in the journal. -/
def Trail.note (t : Trail) (r : Journal.Record) : Trail :=
  { t with log := t.log ++ [r] }

/-- Work that may end early, and leaves a trail either way. -/
abbrev WorkUntil (ε : Type) := ExceptT ε (StateM Trail)

/-- Work that may fail. -/
abbrev Work := WorkUntil EvalError

/-- Work that may fail or break down. -/
abbrev Rendering := WorkUntil Stop

section Steps

variable {ε α : Type}

/-- Work that ends early or succeeds without leaving a trail. -/
def lift (r : Except ε α) : WorkUntil ε α :=
  ExceptT.mk (pure r)

/-- Keeps a message. -/
def keep (m : Message) : WorkUntil ε Unit :=
  ExceptT.lift (modify (·.keep m))

/-- Notes a record in the journal. -/
def note (r : Journal.Record) : WorkUntil ε Unit :=
  ExceptT.lift (modify (·.note r))

/-- Work that may fail, as work that may also break down. -/
def toRendering (w : Work α) : Rendering α := w.adapt Stop.failure

end Steps

/-- Stops if the calculation has been called off. -/
def check (cancelled : Bool) : Work Unit :=
  lift (if cancelled then .error .interrupted else .ok ())

/-- The record of a text that has been put into postfix order. -/
def readingRecord (tokens postfixed : List Token) : Journal.Record :=
  ⟨.trace, .engine, "analyse",
    [("jetons", Token.listing tokens), ("rpn", Token.listing postfixed)]⟩

/-- The tree of a text, no deeper than the bound. -/
def read (bound : Nat) (text : List Char) : Work Expr := do
  let tokens ← lift (Token.tokenize text)
  let postfixed ← lift (Postfix.ofTokens tokens)
  note (readingRecord tokens postfixed)
  lift (Expr.ofPostfix bound postfixed)

/-- The error of a definition that cannot be read, told as one of its name. -/
def blame (name : String) : EvalError → EvalError
  | .unreadable fault _ => .unreadable (.badDefinition name fault) none
  | e => e

/-- Whether a text has no value to offer. -/
def isBlankText (s : String) : Bool := s.toList.all Text.isBlank

/-- The warning that a constant has no value. -/
def valuelessMessage (name : String) : Message :=
  ⟨true, name ++ " n’a pas de valeur : gardée symbolique"⟩

/-- Puts the definitions of named constants into a tree, and the definitions of
    the names in those. `free` holds the names not yet being followed. -/
def resolve (registry : Registry) (bound : Nat) (free : List String) (e : Expr) : Work Expr :=
  e.substitute fun name =>
    match registry.find? name with
    | none => pure none
    | some v =>
      if isBlankText v.value then do
        keep (valuelessMessage name)
        pure none
      else if _h : name ∈ free then do
        let tree ← tryCatch (read bound v.value.toList) fun e => throw (blame name e)
        let tree ← resolve registry bound (free.erase name) tree
        pure (some tree)
      else throw (.arithmetic (.circularDefinition name))
termination_by free.length
decreasing_by
  rw [List.length_erase_of_mem _h]
  have := List.length_pos_of_mem _h
  omega

/-- A result whose text is not worked out yet. -/
structure Deferred where
  tree : Expr
  operation : Operation
  places : Nat
  deriving DecidableEq

/-- The record of a tree about to be worked on. -/
def evaluationRecord (op : Operation) (tree : Expr) : Journal.Record :=
  ⟨.trace, .engine, "évaluation", [("operation", op.name), ("expr", tree.listing)]⟩

/-- Evaluates an expression up to its text. -/
def evaluate (settings : Settings) (registry : Registry) (expression : String) (op : Operation)
    (cancelled : Bool) : Work Deferred := do
  ExceptT.lift (modify fun t => { t with messages := [] })
  check cancelled
  let text := Text.trim expression.toList
  if text.isEmpty then throw (.unreadable .emptyText (some 0))
  let tree ← read settings.depthBound text
  let tree ← resolve registry settings.depthBound registry.names tree
  if tree.depth > settings.depthBound then throw .tooComplex
  check cancelled
  note (evaluationRecord op tree)
  pure ⟨tree, op, settings.places⟩

/-- The remark that a decimal number has been cut off. -/
def truncationMessage (places : Nat) : Message :=
  ⟨false, "résultat tronqué à " ++ toString places ++ " décimales"⟩

/-- The decimal text of a simplified tree. -/
def numericText (places : Nat) (cancelled : Bool) (e : Expr) : Rendering String :=
  match e.firstVariable? with
  | some name => throw (.failure (.undefinedVariable name))
  | none =>
    match e.number? with
    | some q => do
      let (text, exact) := Decimal.ofRat q places
      if !exact then keep (truncationMessage places)
      pure (String.ofList text)
    | none => do
      let n ← lift (FixedPoint.value (places + FixedPoint.guardPlaces) cancelled e)
      let n := n.tdiv (Decimal.scale FixedPoint.guardPlaces)
      keep (truncationMessage places)
      pure (String.ofList (Decimal.trim (Decimal.ofScaled n places)))

/-- Works out the text of a result. -/
def render (d : Deferred) (cancelled : Bool) : Rendering String := do
  toRendering (check cancelled)
  let divided ← lift (Stop.ofChecked d.tree.dividesByZero)
  if divided then throw (.failure (.arithmetic .divisionByZero))
  let e ← lift (Stop.ofChecked d.tree.simplify)
  toRendering (check cancelled)
  match d.operation with
  | .numeric => numericText d.places cancelled e
  | .simplify => pure e.readable

/-- Runs some work with the messages kept so far. -/
def run {α : Type} (work : Rendering α) (messages : List Message) :
    Engine.Call (List Message) α :=
  let (r, t) := work.run.run ⟨messages, []⟩
  match r with
  | .ok a => ⟨.value a, t.messages, t.log⟩
  | .error (.failure e) => ⟨.failure e, t.messages, t.log⟩
  | .error (.breakdown _) => ⟨.breakdown, t.messages, t.log⟩

/-- The exact engine, for a registry of constants; its state is the messages it
    keeps. It never waits. -/
def engine (settings : Settings) (registry : Registry) : Engine (List Message) where
  Result := Deferred
  waits _ _ := false
  evaluate expression op cancelled messages :=
    run (toRendering (evaluate settings registry expression op cancelled)) messages
  render d cancelled messages := run (render d cancelled) messages
  drain messages := ⟨.value messages, [], []⟩

/-- Keeping a message leaves the journal alone. -/
@[simp] theorem log_keep (t : Trail) (m : Message) : (t.keep m).log = t.log := by
  unfold Trail.keep
  split <;> rfl

theorem mem_keep (t : Trail) (m : Message) : m ∈ (t.keep m).messages := by
  unfold Trail.keep
  split
  · rename_i hkept
    exact List.contains_iff_mem.mp hkept
  · exact List.mem_append_right _ List.mem_cons_self

end Exact

end ExactCalc
