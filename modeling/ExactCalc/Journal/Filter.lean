import ExactCalc.Journal.Record

/-!
# Journal Filters

Which records a journal lets through.

Filters are read and applied by whatever writes the journal, and nothing is said of
them here but what they are asked. What the calculator has of its own is the choice:
the filter its environment asks for, or the level of information if the environment
asks for none, or for something that is no filter.

## Main definitions

* `Journal.Filters`: Filters, and what they are asked.
* `Journal.Filters.chosen`: The filter of a journal.
* `Journal.Filters.shown`: The records that are let through.
-/

namespace ExactCalc

namespace Journal

/-- Filters of a type, as far as the journal makes use of them. -/
structure Filters (F : Type) where
  /-- Reads a filter, if the text is one. -/
  read? : String → Option F
  /-- Reads as much of a filter as there is. -/
  read : String → F
  /-- Whether a record is let through. -/
  allows : F → Record → Bool

namespace Filters

variable {F : Type} (L : Filters F)

/-- The filter a text asks for; without a text, or with one that is no filter,
    the one for the level of information. -/
def chosen (text : Option String) : F := (text.bind L.read?).getD (L.read "info")

/-- The records of a journal that its filter lets through, in order. -/
def shown (text : Option String) (log : List Entry) : List Entry :=
  log.filter fun e => L.allows (L.chosen text) e.record

end Filters

end Journal

end ExactCalc
