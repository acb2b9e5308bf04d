import ExactCalc.Engine
import ExactCalc.Numeral.Conversion
import ExactCalc.Prepared
import ExactCalc.Screen

/-!
# Events

What happens around calculations, conversions, the screen and the constants.

Every event is stamped with a number of its own and the number of the sequence
it belongs to; an event that opens a sequence has the two alike.

## Main definitions

* `Stamp`: The two numbers.
* `CalculationResult`, `Failure`, `Conversion`, `Change`: What events tell.
* `Event`: The seventeen kinds.
* `Event.typeName`: Their names.
-/

namespace ExactCalc

/-- The number of an event and that of its sequence. -/
structure Stamp where
  id : Nat
  sequence : Nat
  deriving DecidableEq, Repr

namespace Stamp

/-- Whether the event opens its sequence. -/
def opensSequence (s : Stamp) : Bool := s.id == s.sequence

/-- The text of a stamp. -/
def text (s : Stamp) : String := "#" ++ toString s.id ++ "/seq " ++ toString s.sequence

end Stamp

/-- The result of a calculation. -/
structure CalculationResult where
  operation : Operation
  /-- The expression that was evaluated. -/
  expression : String
  text : String
  deriving DecidableEq, Repr

namespace CalculationResult

/-- The result of calculating nothing. -/
def empty (op : Operation) : CalculationResult := ⟨op, "", ""⟩

/-- Whether there is no text. -/
def isEmpty (r : CalculationResult) : Bool := r.text.isEmpty

end CalculationResult

/-- What a calculation can fail of. -/
inductive Failure.Nature where
  | reading
  | arithmetic
  | tooComplex
  | radix
  | undefinedVariable
  | engine
  deriving DecidableEq, Repr

/-- The failure of a calculation. -/
structure Failure where
  operation : Operation
  /-- The typed text if it could not be prepared, else the expression. -/
  expression : String
  nature : Failure.Nature
  message : String
  /-- The stretch of the expression that is at fault. -/
  span : Option Span
  deriving DecidableEq, Repr

namespace Failure

/-- The failure of a text that could not be prepared. -/
def ofPreparation (op : Operation) (text : String) (e : PreparationError) : Failure :=
  ⟨op, text, .reading, e.message, some e.span⟩

/-- What an error of the engine is a failure of. -/
def natureOf : EvalError → Nature
  | .unreadable _ _ => .reading
  | .arithmetic _ => .arithmetic
  | .tooComplex => .tooComplex
  | .digitOutsideRadix _ _ => .radix
  | .undefinedVariable _ => .undefinedVariable
  | .interrupted | .internal _ => .engine

/-- The character an error of the engine points at. -/
def spanOf : EvalError → Option Span
  | .unreadable _ position => position.map fun p => ⟨p, p + 1⟩
  | _ => none

/-- The failure of an expression that the engine could not evaluate. -/
def ofEngine (op : Operation) (expression : String) (e : EvalError) : Failure :=
  ⟨op, expression, natureOf e, e.message, spanOf e⟩

end Failure

/-- A conversion asked for. -/
structure Conversion where
  value : String
  source : Radix
  target : Radix
  deriving DecidableEq, Repr

/-- Something before and after a change. -/
structure Change (α : Type) where
  old : α
  new : α
  deriving DecidableEq, Repr

/-- What can happen. -/
inductive Event where
  | calculationResult (r : CalculationResult)
  | calculationFailed (f : Failure)
  | calculationCancelled
  | calculationMessages (ms : List Message)
  | conversionStarted (c : Conversion)
  | conversionResult (c : Conversion) (text : String)
  | conversionFailed (c : Conversion) (e : ConversionError)
  | displayChanged (c : Change Display)
  | editorChanged (c : Change Editor)
  | constantAdded (v : Variable)
  | constantChanged (c : Change Variable)
  | constantRemoved (v : Variable)
  | functionAdded (name : String)
  | functionChanged (name : String)
  | functionRemoved (name : String)
  | preferencesChanged
  /-- The text of the editor is to be calculated. -/
  | calculationRequested (editor : Editor)
  deriving DecidableEq, Repr

/-- The name of the kind of an event. -/
def Event.typeName : Event → String
  | .calculationResult _ => "CalculationResult"
  | .calculationFailed _ => "CalculationFailed"
  | .calculationCancelled => "CalculationCancelled"
  | .calculationMessages _ => "CalculationMessages"
  | .conversionStarted _ => "ConversionStarted"
  | .conversionResult _ _ => "ConversionResult"
  | .conversionFailed _ _ => "ConversionFailed"
  | .displayChanged _ => "DisplayStateChanged"
  | .editorChanged _ => "EditorStateChanged"
  | .constantAdded _ => "ConstantAdded"
  | .constantChanged _ => "ConstantChanged"
  | .constantRemoved _ => "ConstantRemoved"
  | .functionAdded _ => "FunctionAdded"
  | .functionChanged _ => "FunctionChanged"
  | .functionRemoved _ => "FunctionRemoved"
  | .preferencesChanged => "EnginePreferencesChanged"
  | .calculationRequested _ => "ManualCalculationRequested"

end ExactCalc
