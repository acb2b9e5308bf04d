import ExactCalc.Literal
import ExactCalc.Registry

/-!
# Prepared Expressions

Typed text turned into the text of a well-formed expression.

A draft is a row of pieces. Each lexeme of the text adds a piece, or belongs to
a number literal that is still open and adds its piece when it closes. The
written form of the draft joins the pieces, and what stands between two
neighbours depends on nothing but those two: a multiplication sign where an
operand directly follows an operand, a space where a function's name would
otherwise run into a word, and nothing elsewhere.

A digit that the base in force refuses is kept rather than rejected. It is
glued to the number before it, or written behind the marker of the session's
base, so that reading the expression later reports the bad digit instead of
taking it for a decimal one.

## Main definitions

* `PreparationError`: What is wrong with a text, and where.
* `Piece`, `Piece.joint`, `Piece.write`: Pieces and their written form.
* `Draft`: The pieces so far, the open brackets, and the undefined names.
* `Prepared`: An expression with the names it leaves undefined.
* `Prepared.ofText`: The whole way from typed text.

## Theorems

* `write_cons_cons`: Neighbouring pieces are written with their joint between.
-/

namespace ExactCalc

/-- What makes a text no expression. -/
inductive PreparationError.Cause where
  | unexpectedCharacter (c : Char)
  | markerWithoutDigits
  | misplacedOperator (sign : List Char)
  | unmatchedClosing
  | emptyGroup
  | incomplete
  | unclosedGroup
  deriving DecidableEq, Repr

/-- What is wrong with a text, and the stretch of it that shows the fault. -/
structure PreparationError where
  cause : PreparationError.Cause
  span : Span
  deriving DecidableEq, Repr

namespace PreparationError

/-- The wording of a fault. -/
def Cause.message : Cause → String
  | .unexpectedCharacter c => "caractère inattendu: '" ++ c.toString ++ "'"
  | .markerWithoutDigits => "marqueur de base sans chiffres"
  | .misplacedOperator sign => "opérateur '" ++ String.ofList sign ++ "' mal placé"
  | .unmatchedClosing => "parenthèse fermante sans ouvrante"
  | .emptyGroup => "groupe vide"
  | .incomplete => "expression incomplète"
  | .unclosedGroup => "parenthèse non fermée"

/-- The wording of the fault alone. -/
def message (e : PreparationError) : String := e.cause.message

/-- The wording of the fault with its place. -/
def describe (e : PreparationError) : String :=
  e.message ++ " (position " ++ toString e.span.start ++ ".." ++ toString e.span.stop ++ ")"

end PreparationError

/-- One piece of an expression. -/
inductive Piece where
  /-- A number literal. -/
  | number (text : List Char)
  /-- A number that holds a digit its base refuses. -/
  | refused (text : List Char)
  | constant (name : List Char)
  | operator (sign : List Char)
  | opening
  | closing
  | function (name : List Char)
  deriving DecidableEq, Repr

namespace Piece

/-- The piece on its own. -/
def text : Piece → List Char
  | .number t | .refused t | .constant t | .operator t | .function t => t
  | .opening => ['(']
  | .closing => [')']

/-- Whether an operand ends with this piece. -/
def endsOperand : Piece → Bool
  | .number _ | .refused _ | .constant _ | .closing => true
  | .operator _ | .opening | .function _ => false

/-- Whether an operand starts with this piece. -/
def startsOperand : Piece → Bool
  | .number _ | .refused _ | .constant _ | .opening | .function _ => true
  | .operator _ | .closing => false

/-- What is written between two neighbouring pieces. -/
def joint (left right : Piece) : List Char :=
  if !right.startsOperand then []
  else if left.endsOperand then ['*']
  else
    match left with
    | .function name =>
      if name.getLast?.any isNameChar && right.text.head?.any isNameChar then [' '] else []
    | _ => []

/-- The written form of a row of pieces. -/
def write : List Piece → List Char
  | [] => []
  | [p] => p.text
  | p :: q :: ps => p.text ++ (joint p q ++ write (q :: ps))

/-- Neighbouring pieces are written with their joint between. -/
theorem write_cons_cons (p q : Piece) (ps : List Piece) :
    write (p :: q :: ps) = p.text ++ (joint p q ++ write (q :: ps)) := rfl

end Piece

/-- An expression under construction. -/
structure Draft where
  /-- The pieces so far, the last one first. -/
  pieces : List Piece
  /-- Where the last piece comes from. -/
  zone : Span
  /-- The positions of the brackets still open, the last one first. -/
  openings : List Nat
  /-- The names without a definition, in order of first appearance. -/
  undefinedNames : List String
  deriving DecidableEq, Repr

namespace Draft

/-- Nothing yet. -/
def empty : Draft := ⟨[], ⟨0, 0⟩, [], []⟩

/-- Adds a piece. -/
def add (d : Draft) (p : Piece) (zone : Span) : Draft :=
  { d with pieces := p :: d.pieces, zone }

/-- Whether the last piece is a number with a refused digit. -/
def endsRefused (d : Draft) : Bool :=
  match d.pieces with
  | .refused _ :: _ => true
  | _ => false

/-- Whether an operand has to come next. -/
def awaitsOperand (d : Draft) : Bool :=
  match d.pieces with
  | [] => true
  | .operator _ :: _ | .opening :: _ | .function _ :: _ => true
  | _ => false

/-- Whether the draft cannot end where it stands. -/
def isIncomplete (d : Draft) : Bool :=
  match d.pieces with
  | .operator _ :: _ | .function _ :: _ => true
  | _ => false

/-- Whether the last piece is an opening bracket. -/
def endsOpening (d : Draft) : Bool :=
  match d.pieces with
  | .opening :: _ => true
  | _ => false

/-- Adds a closed literal, which must have digits. -/
def addLiteral (d : Draft) (l : Literal) (zone : Span) : Except PreparationError Draft :=
  if l.digits.isEmpty then .error ⟨.markerWithoutDigits, zone⟩
  else .ok (d.add (.number l.normal) zone)

/-- Adds a digit that the base in force refuses: glued to the number before it,
    and otherwise behind the marker of the session's base. -/
def addRefused (d : Draft) (session : Radix) (l : Lexeme) : Draft :=
  match d.pieces with
  | .number t :: ps | .refused t :: ps =>
    { d with pieces := .refused (t ++ l.text) :: ps, zone := l.span }
  | _ =>
    d.add (.refused (if session = .dec then l.text else session.marker ++ l.text)) l.span

/-- Adds a constant, noting its name if nothing defines it. -/
def addConstant (d : Draft) (known : String → Bool) (l : Lexeme) : Draft :=
  let name := String.ofList l.normal
  let missing := name != Variable.piName && !known name && !d.undefinedNames.contains name
  { d.add (.constant l.normal) l.span with
    undefinedNames := if missing then d.undefinedNames ++ [name] else d.undefinedNames }

/-- Closes the bracket opened last. -/
def close (d : Draft) (zone : Span) : Except PreparationError Draft :=
  match d.openings with
  | [] => .error ⟨.unmatchedClosing, zone⟩
  | _ :: outer =>
    if d.endsOpening then .error ⟨.emptyGroup, zone⟩
    else if d.isIncomplete then .error ⟨.incomplete, zone⟩
    else .ok { d.add .closing zone with openings := outer }

/-- Adds a lexeme that belongs to no literal. -/
def addLexeme (d : Draft) (session : Radix) (known : String → Bool) (l : Lexeme) :
    Except PreparationError Draft :=
  match l.kind with
  | .separator => .ok d
  | .digit | .point | .exponent | .marker => .ok (d.addRefused session l)
  | .operator =>
    if (l.normal = ['*'] ∨ l.normal = ['/'] ∨ l.normal = ['^']) ∧ d.awaitsOperand then
      .error ⟨.misplacedOperator l.text, l.span⟩
    else .ok (d.add (.operator l.normal) l.span)
  | .opening => .ok { d.add .opening l.span with openings := l.start :: d.openings }
  | .closing => d.close l.span
  | .function => .ok (d.add (.function l.text) l.span)
  | .constant => .ok (d.addConstant known l)

end Draft

/-- The text of an expression, with the names it leaves undefined. -/
structure Prepared where
  expression : String
  /-- The names without a definition, in order of first appearance. -/
  undefinedNames : List String
  deriving DecidableEq, Repr

/-- The state of a walk over typed text. -/
structure Preparation where
  builder : Literal.Builder
  /-- Where the open literal starts. -/
  literalStart : Nat
  draft : Draft
  deriving DecidableEq, Repr

namespace Preparation

/-- Nothing read yet. -/
def start (session : Radix) : Preparation := ⟨.new session, 0, .empty⟩

/-- Adds the literal that a lexeme has closed. A marker whose first digit is
    refused is written as it stands, for the digit to be glued to it. -/
def addClosed (p : Preparation) (l : Lexeme) (o : Literal.Builder.Outcome) :
    Except PreparationError Draft :=
  match o.closed with
  | none => .ok p.draft
  | some literal =>
    let zone : Span := ⟨p.literalStart, l.start⟩
    if literal.digits.isEmpty && l.kind == .digit && !o.absorbed then
      .ok (p.draft.add (.refused literal.radix.marker) zone)
    else p.draft.addLiteral literal zone

/-- Takes in one lexeme. After a refused digit, digits, points and powers of ten
    stay with it until something else comes. -/
def step (session : Radix) (known : String → Bool) (p : Preparation) (l : Lexeme) :
    Except PreparationError Preparation :=
  if p.draft.endsRefused && (l.kind == .digit || l.kind == .point || l.kind == .exponent) then
    .ok { p with draft := p.draft.addRefused session l }
  else
    let (o, builder) := p.builder.accept l
    let opened := o.absorbed && (!p.builder.isOpen || o.closed.isSome)
    match p.addClosed l o with
    | .error e => .error e
    | .ok draft =>
      let literalStart := if opened then l.start else p.literalStart
      if o.absorbed then .ok ⟨builder, literalStart, draft⟩
      else (draft.addLexeme session known l).map fun draft => ⟨builder, literalStart, draft⟩

/-- Ends the walk: the open literal is closed, and nothing may be left open. -/
def finish (p : Preparation) (length : Nat) : Except PreparationError Draft :=
  let closed : Except PreparationError Draft :=
    match p.builder.finish.1 with
    | none => .ok p.draft
    | some literal => p.draft.addLiteral literal ⟨p.literalStart, length⟩
  match closed with
  | .error e => .error e
  | .ok d =>
    if d.isIncomplete then .error ⟨.incomplete, d.zone⟩
    else
      match d.openings with
      | pos :: _ => .error ⟨.unclosedGroup, ⟨pos, pos + 1⟩⟩
      | [] => .ok d

/-- The draft of a whole text. -/
def draftOf (session : Radix) (known : String → Bool) (text : List Char) :
    Except PreparationError Draft :=
  match Lexeme.scan (·.builder.isHex) (step session known)
      (fun _ pos c => ⟨.unexpectedCharacter c, ⟨pos, pos + 1⟩⟩) none 0 text (start session) with
  | .error e => .error e
  | .ok p => p.finish text.length

end Preparation

namespace Prepared

/-- Whether some name is left undefined. -/
def hasUndefined (p : Prepared) : Bool := !p.undefinedNames.isEmpty

/-- Whether there is no expression at all. -/
def isEmpty (p : Prepared) : Bool := p.expression.isEmpty

/-- The expression a draft stands for. -/
def ofDraft (d : Draft) : Prepared :=
  ⟨String.ofList (Piece.write d.pieces.reverse), d.undefinedNames⟩

/-- The expression that typed text stands for, numbers without a marker being
    read in the session's base. -/
def ofText (registry : Registry) (session : Radix) (text : String) :
    Except PreparationError Prepared :=
  (Preparation.draftOf session registry.contains text.toList).map ofDraft

end Prepared

end ExactCalc
