import ExactCalc.Bus.Cast
import ExactCalc.Calculator
import ExactCalc.Engine.Scripted
import ExactCalc.Journal.Filter
import ExactCalc.Postfix
import ExactCalc.Proofs.Postfix.Postorder
import ExactCalc.Proofs.Simplify.Meaning
import ExactCalc.Proofs.Simplify.NormalForm
import ExactCalc.Proofs.Simplify.Arithmetic
import ExactCalc.Proofs.Calculation.Recorded
import ExactCalc.Proofs.Calculation.Course
import ExactCalc.Proofs.Calculation.Submission
import ExactCalc.Proofs.Postfix.Infix
import ExactCalc.Proofs.Postfix.Operands
import ExactCalc.Proofs.Postfix.Listing
import ExactCalc.Proofs.Postfix.Conserved
import ExactCalc.Proofs.Numeral
import ExactCalc.Proofs.Numeral.Conversion
import ExactCalc.Proofs.Text
import ExactCalc.Proofs.Radix
import ExactCalc.Proofs.Token.Spelling
import ExactCalc.Proofs.Token.Cut
import ExactCalc.Proofs.Readable
import ExactCalc.Proofs.Lexeme
import ExactCalc.Proofs.Prepared.Step
import ExactCalc.Proofs.Prepared.Growth
import ExactCalc.Proofs.Prepared.Row
import ExactCalc.Proofs.Prepared.Reread
import ExactCalc.Proofs.Prepared.Again
import ExactCalc.Proofs.Prepared.Parsed
import ExactCalc.Proofs.Definitions
import ExactCalc.Proofs.Postfix.Placed
import ExactCalc.Proofs.Token.Number
import ExactCalc.Proofs.Token.Literals
import ExactCalc.Proofs.Prepared.Refused
import ExactCalc.Proofs.Cancellation
import ExactCalc.Proofs.Calculation.Answered
import ExactCalc.Proofs.Messages
import ExactCalc.Proofs.Trail
import ExactCalc.Proofs.Evaluation
import ExactCalc.Proofs.Prepared.Integer
import ExactCalc.Proofs.Integer
import ExactCalc.Proofs.Simplify.Inherited
import ExactCalc.Proofs.Simplify.Names
import ExactCalc.Proofs.Simplify.Divisions
import ExactCalc.Proofs.Simplify.Surd
import ExactCalc.Proofs.Simplify.ReducedRoot
import ExactCalc.Proofs.Decimal.Scaled
import ExactCalc.Proofs.Decimal.CutOff
import ExactCalc.Proofs.FixedPoint.Root
import ExactCalc.Proofs.FixedPoint.Surd
import ExactCalc.Proofs.Parsing
import ExactCalc.Proofs.Written
import ExactCalc.Proofs.Attempt
import ExactCalc.Proofs.Answer
import ExactCalc.Proofs.Delivery
import ExactCalc.Proofs.Reaction
import ExactCalc.Proofs.Live
import ExactCalc.Proofs.Zone
import ExactCalc.Proofs.Token.Value
import ExactCalc.Proofs.Literal.Assembly
import ExactCalc.Proofs.Prepared.Within
import ExactCalc.Proofs.Prepared.Grouped
import ExactCalc.Proofs.Prepared.Marked
import ExactCalc.Proofs.History
import ExactCalc.Proofs.Registry
import ExactCalc.Proofs.Display
import ExactCalc.Proofs.Brackets
import ExactCalc.Proofs.Lexeme.Place
import ExactCalc.Proofs.Prepared.Faults
import ExactCalc.Proofs.FixedPoint.Sum
import ExactCalc.Proofs.Simplify.Depth
import ExactCalc.Proofs.FixedPoint.Arctangent
