import ExactCalc.Text.Quoted

/-!
# Journal Records

What the parts of the calculator note down while they work.

A record is a message with named fields, noted at a level by one of the parts.
It becomes a line of text only here. Whoever notes it acts either as the caller
of the calculator, as one of its workers, or as the sequencer that delivers its
events; the journal keeps the three apart, because nothing orders what two of
them do at the same time.

## Main definitions

* `Journal.Level`, `Journal.Source`, `Journal.Actor`: How important, noted by
  which part, and acting for whom.
* `Journal.Record`: A message with fields, and its text.
* `Journal.Entry`: A record with its actor.
-/

namespace ExactCalc

namespace Journal

/-- How important a record is, most important first. -/
inductive Level where
  | error
  | warn
  | info
  | debug
  | trace
  deriving DecidableEq, Repr

/-- The name of a level in a line of the journal. -/
def Level.name : Level → String
  | .error => "ERROR"
  | .warn => "WARN"
  | .info => "INFO"
  | .debug => "DEBUG"
  | .trace => "TRACE"

/-- The part of the calculator that notes a record. -/
inductive Source where
  | preparation
  | engine
  | bus
  | pool
  | calculator
  deriving DecidableEq, Repr

/-- The name under which the journal knows a part, and by which it is selected. -/
def Source.path : Source → String
  | .preparation => "calculatrice_flux::pretraitement"
  | .engine => "calculatrice_flux::noyau::eval"
  | .bus => "calculatrice_flux::bus"
  | .pool => "calculatrice_flux::pool"
  | .calculator => "calculatrice_flux::calculatrice"

/-- On whose behalf something is done. -/
inductive Actor where
  | caller
  | worker (number : Nat)
  | sequencer
  deriving DecidableEq, Repr

/-- The name of an actor that the calculator itself runs. -/
def Actor.name? : Actor → Option String
  | .caller => none
  | .worker number => some ("calc-eval-" ++ toString number)
  | .sequencer => some "calc-evenements"

/-- A message with named fields. -/
structure Record where
  level : Level
  source : Source
  message : String
  /-- The fields in order, each with the text of its value. -/
  fields : List (String × String)
  deriving DecidableEq, Repr

namespace Record

/-- The line of a record: its message, then each field. -/
def text (r : Record) : String :=
  r.fields.foldl (fun line f => line ++ " " ++ f.1 ++ "=" ++ f.2) r.message

end Record

/-- A record with the actor who noted it. -/
structure Entry where
  actor : Actor
  record : Record
  deriving DecidableEq, Repr

end Journal

end ExactCalc
