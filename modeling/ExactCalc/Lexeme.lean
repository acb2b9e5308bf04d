import ExactCalc.Numeral.Conversion

/-!
# Lexemes of Typed Text

What the piece of typed text at a given place is: a digit, a sign, a bracket, a
function, a name, and so on.

Recognition looks at three things only: the character just before the place,
whether letters count as digits of base sixteen, and the text that follows. The
first rule that applies wins. A marker opens a word, so `10x` is ten times `x`;
the letter `E` is a power of ten only right after a digit or a point, so alone
it starts a name; and letters `A` to `F` are digits only while a number of base
sixteen is being read.

`scan` walks a text lexeme by lexeme. Whether letters are digits may change as
the walk goes on, because a marker met on the way decides the base of the
digits after it; so the walk carries a state, asks the state about letters, and
lets a step function update it.

## Main definitions

* `Lexeme.Kind`, `Lexeme.Group`: What a lexeme can be, and the coarser classes.
* `Lexeme`: A kind, the text, and where it starts.
* `Lexeme.recognise`: The kind at a place and how many further characters it
  takes.
* `Lexeme.at?`: The lexeme at an offset of a text.
* `Lexeme.normal`: The text that stands for the lexeme in an expression.
* `Lexeme.scan`: The walk over a text.

## Theorems

* `start_lt_stop`: A recognised lexeme is never empty.
-/

namespace ExactCalc

/-- Whether a character can stand inside a name. -/
def isNameChar (c : Char) : Bool :=
  c.isAlphanum || c == '_'

/-- Whether a character can start a name. -/
def isNameStart (c : Char) : Bool :=
  c.isAlpha || c == '_'

/-- The letter of a power of ten, as in `1.5E-3`. -/
def exponentLetter : Char := 'E'

/-- The sign of a square root, which applies to what follows it. -/
def rootSign : Char := '√'

/-- The functions that are called by name. -/
def functionNames : List (List Char) :=
  [['s', 'q', 'r', 't'], ['a', 'b', 's']]

/-- A stretch of text, from its first character up to but not including the
    last position. -/
structure Span where
  start : Nat
  stop : Nat
  deriving DecidableEq, Repr

namespace Lexeme

/-- What a lexeme can be. -/
inductive Kind where
  /-- The marker of a base. -/
  | marker
  /-- A blank or an apostrophe, which may separate groups of digits. -/
  | separator
  /-- The point before a fraction. -/
  | point
  /-- The letter of a power of ten. -/
  | exponent
  | digit
  /-- A sign between two operands. -/
  | operator
  | opening
  | closing
  | function
  /-- A name that stands for a value. -/
  | constant
  deriving DecidableEq, Repr

/-- The coarser classes of lexemes. -/
inductive Group where
  | number
  | operation
  | bracket
  | function
  | other
  deriving DecidableEq, Repr

/-- The class a kind belongs to. Whatever can stand inside a number belongs to
    the class of numbers. -/
def Kind.group : Kind → Group
  | .marker | .separator | .point | .exponent | .digit => .number
  | .operator => .operation
  | .opening | .closing => .bracket
  | .function => .function
  | .constant => .other

end Lexeme

/-- A recognised piece of text. -/
structure Lexeme where
  kind : Lexeme.Kind
  text : List Char
  /-- The position of the first character. -/
  start : Nat
  deriving DecidableEq, Repr

namespace Lexeme

/-- The class of the lexeme. -/
def group (l : Lexeme) : Group := l.kind.group

/-- The position just after the lexeme. -/
def stop (l : Lexeme) : Nat := l.start + l.text.length

/-- The stretch of text the lexeme covers. -/
def span (l : Lexeme) : Span := ⟨l.start, l.stop⟩

/-- The text that stands for the lexeme in an expression: markers in their long
    form, typographic signs as plain ones, every bracket round. -/
def normal (l : Lexeme) : List Char :=
  match l.kind with
  | .marker => ((Radix.ofMarker? l.text).map Radix.marker).getD l.text
  | .operator =>
    if l.text = ['×'] then ['*'] else if l.text = ['÷'] then ['/'] else l.text
  | .opening => ['(']
  | .closing => [')']
  | .constant => if l.text = ['π'] then ['p', 'i'] else l.text
  | _ => l.text

/-- Whether a marker may start after the given character: it must open a word,
    and not stand inside a number. -/
def opensWord (prev : Option Char) : Bool :=
  match prev with
  | none => true
  | some p => !(isNameChar p || p == '.')

/-- How many characters after the first belong to a marker that starts here.
    The short marker counts only in front of a digit. -/
def markerTail? (prev : Option Char) (text : List Char) : Option Nat :=
  if !opensWord prev then none
  else if (Radix.splitLongMarker? text).isSome then some 2
  else
    match Radix.stripStart? Radix.shortMarker text with
    | some (d :: _) => if Radix.hex.accepts d then some 1 else none
    | _ => none

/-- Whether a power of ten may start after the given character. -/
def endsMantissa (prev : Option Char) : Bool :=
  match prev with
  | none => false
  | some p => p.isDigit || p == '.'

/-- How many characters after the first belong to the function that is called
    by name here: the name must be a whole word. -/
def functionTail? (text : List Char) : Option Nat :=
  functionNames.findSome? fun name =>
    match Radix.stripStart? name text with
    | some (d :: _) => if isNameChar d then none else some (name.length - 1)
    | some [] => some (name.length - 1)
    | none => none

/-- The signs between two operands. -/
def operatorSigns : List Char := ['+', '-', '*', '/', '^', '×', '÷']

/-- The kind of the lexeme whose first character is `c`, and how many of the
    characters `cs` after it belong to it. `prev` is the character before and
    `hex` tells whether letters are digits. -/
def recognise (prev : Option Char) (hex : Bool) (c : Char) (cs : List Char) :
    Option (Kind × Nat) :=
  match markerTail? prev (c :: cs) with
  | some n => some (.marker, n)
  | none =>
    if Numeral.isSeparator c then some (.separator, 0)
    else if c = '.' then some (.point, 0)
    else if !hex && c == exponentLetter && endsMantissa prev then some (.exponent, 0)
    else if c.isDigit || (hex && Radix.hex.accepts c) then some (.digit, 0)
    else if c ∈ operatorSigns then some (.operator, 0)
    else if c = '(' ∨ c = '[' then some (.opening, 0)
    else if c = ')' ∨ c = ']' then some (.closing, 0)
    else if c = rootSign then some (.function, 0)
    else
      match functionTail? (c :: cs) with
      | some n => some (.function, n)
      | none =>
        if c = 'π' then some (.constant, 0)
        else if isNameStart c then some (.constant, (cs.takeWhile isNameChar).length)
        else none

/-- The lexeme that starts at an offset of a text, if any rule applies there. -/
def at? (text : List Char) (offset : Nat) (hex : Bool) : Option Lexeme :=
  let prev := if offset = 0 then none else text[offset - 1]?
  match text.drop offset with
  | [] => none
  | c :: cs => (recognise prev hex c cs).map fun (kind, n) => ⟨kind, c :: cs.take n, offset⟩

/-- Walks over a text lexeme by lexeme. `hex` asks the state whether letters
    are digits, `step` takes in one lexeme, and `refuse` makes the error for a
    character at which no lexeme starts. `prev` is the character before the
    text and `pos` the position of its first character. -/
def scan {σ ε : Type} (hex : σ → Bool) (step : σ → Lexeme → Except ε σ)
    (refuse : σ → Nat → Char → ε) (prev : Option Char) (pos : Nat) :
    List Char → σ → Except ε σ
  | [], s => .ok s
  | c :: cs, s =>
    match recognise prev (hex s) c cs with
    | none => .error (refuse s pos c)
    | some (kind, n) =>
      let l : Lexeme := ⟨kind, c :: cs.take n, pos⟩
      match step s l with
      | .error e => .error e
      | .ok s' => scan hex step refuse l.text.getLast? l.stop (cs.drop n) s'
termination_by cs => cs.length
decreasing_by simp only [List.length_drop, List.length_cons]; omega

/-- A recognised lexeme is never empty, so a walk always moves on. -/
theorem start_lt_stop (kind : Kind) (c : Char) (cs : List Char) (n pos : Nat) :
    pos < (Lexeme.mk kind (c :: cs.take n) pos).stop := by
  simp only [stop, List.length_cons]
  omega

end Lexeme

end ExactCalc
