import ExactCalc.Lexeme

/-!
# Number Literals

How a number is put together from the lexemes of a text, one lexeme at a time.

A builder holds at most one open literal. A lexeme either continues it, or
closes it and perhaps opens the next one. The decision depends on the state of
the builder and on the lexeme alone, never on the position in the text. A
marker is allowed only where no literal is open, and it decides the base of the
digits up to the end of that literal; after that the base of the session is in
force again.

## Main definitions

* `Literal`: A closed literal, with its digits and its written form.
* `Literal.Builder`: The open literal, and the base in force.
* `Literal.Builder.canContinue`, `accept`, `finish`: One lexeme, and the end.
* `Literal.readText`: A whole text put through a builder.

## Theorems

* `active_new`: A fresh builder works in the base of its session.
* `current_finish`: Nothing is open after the end.
-/

namespace ExactCalc

/-- A closed number literal. -/
structure Literal where
  radix : Radix
  /-- Whether a marker was typed in front of it. -/
  explicit : Bool
  /-- The text typed after the marker, separators included. -/
  body : List Char
  deriving DecidableEq, Repr

namespace Literal

/-- The body without the separators between groups of digits. -/
def digits (l : Literal) : List Char :=
  l.body.filter (!Numeral.isSeparator ·)

/-- The written form of the literal: its marker, unless it is a decimal one that
    was typed without, and then its digits. -/
def normal (l : Literal) : List Char :=
  if l.explicit || l.radix ≠ .dec then l.radix.marker ++ l.digits else l.digits

/-- A builder of literals. -/
structure Builder where
  /-- The base of digits that no marker precedes. -/
  session : Radix
  /-- The base in force. -/
  active : Radix
  /-- The body of the open literal, if one is open. -/
  current : Option (List Char)
  /-- Whether a marker opened the literal. -/
  explicit : Bool
  deriving DecidableEq, Repr

namespace Builder

/-- A builder with nothing open. -/
def new (session : Radix) : Builder := ⟨session, session, none, false⟩

/-- Whether letters are digits at present. -/
def isHex (b : Builder) : Bool := b.active == .hex

/-- Whether a literal is open. -/
def isOpen (b : Builder) : Bool := b.current.isSome

/-- Whether the open literal ends in the letter of a power of ten. -/
def endsInExponent (b : Builder) : Bool :=
  match b.current with
  | some body => body.getLast? == some exponentLetter
  | none => false

/-- Whether the lexeme continues the open literal, or opens one. A digit must
    belong to the base in force, a separator and a marker depend on whether a
    literal is open, and a sign belongs to a number after the letter of a power
    of ten. -/
def canContinue (b : Builder) (l : Lexeme) : Bool :=
  let separates := !b.isOpen && l.kind == .separator
  let digitFits := l.kind != .digit || l.text.head?.any b.active.accepts
  let markerFits := l.kind != .marker || !b.isOpen
  let signOfExponent :=
    !b.isHex && (l.text == ['+'] || l.text == ['-']) && b.endsInExponent
  (l.group == .number && !separates && digitFits && markerFits) || signOfExponent

/-- Takes a lexeme into the open literal, opening one if need be. -/
def absorb (b : Builder) (l : Lexeme) : Builder :=
  if l.kind = .marker then
    { b with
      active := (Radix.ofMarker? l.text).getD b.active, explicit := true, current := some [] }
  else { b with current := some (b.current.getD [] ++ l.text) }

/-- Closes the open literal, if there is one. -/
def finish (b : Builder) : Option Literal × Builder :=
  match b.current with
  | none => (none, b)
  | some body => (some ⟨b.active, b.explicit, body⟩, new b.session)

/-- What became of a lexeme. -/
structure Outcome where
  /-- The literal the lexeme closed. -/
  closed : Option Literal
  /-- Whether the lexeme went into a literal. -/
  absorbed : Bool
  deriving DecidableEq, Repr

/-- Takes in one lexeme: the open literal goes on, or it is closed and the
    lexeme may open the next. -/
def accept (b : Builder) (l : Lexeme) : Outcome × Builder :=
  if b.canContinue l then (⟨none, true⟩, b.absorb l)
  else
    let (closed, b') := b.finish
    if b'.canContinue l then (⟨closed, true⟩, b'.absorb l) else (⟨closed, false⟩, b')

/-- A fresh builder works in the base of its session. -/
@[simp] theorem active_new (r : Radix) : (new r).active = r := rfl

/-- Nothing is open after the end. -/
@[simp] theorem current_finish (b : Builder) : b.finish.2.current = none := by
  unfold finish
  split
  · assumption
  · rfl

end Builder

/-- One lexeme of a text beside what the builder made of it. -/
structure Reading where
  lexeme : Lexeme
  outcome : Builder.Outcome
  deriving DecidableEq, Repr

/-- What a builder made of a whole text. -/
structure Readings where
  /-- Every lexeme in order. -/
  readings : List Reading
  /-- The place at which no lexeme starts, if the text was not read to its end. -/
  stoppedAt : Option Nat
  /-- The literal that was still open when the reading ended. -/
  last : Option Literal
  deriving DecidableEq, Repr

/-- Puts a text through a builder. -/
def readText (session : Radix) (text : List Char) : Readings :=
  let step := fun (s : List Reading × Builder) (l : Lexeme) =>
    let (o, b) := s.2.accept l
    (.ok (⟨l, o⟩ :: s.1, b) : Except ((List Reading × Builder) × Nat) (List Reading × Builder))
  match Lexeme.scan (·.2.isHex) step (fun s pos _ => (s, pos)) none 0 text
      ([], Builder.new session) with
  | .ok (rs, b) => ⟨rs.reverse, none, b.finish.1⟩
  | .error ((rs, b), pos) => ⟨rs.reverse, some pos, b.finish.1⟩

end Literal

end ExactCalc
