/-!
# Parse errors

A `Cause` is what went wrong, a `Position` where, and a `Fault` both together,
as the parser finds it from the tokens alone. An `Error` is a fault with the
line of the source that it is blamed on.
-/

namespace MlFront

/-- What went wrong. `internal` is a limit of the parser, all others are faults
of the program. -/
inductive Cause where
  | unexpectedEnd
  | unexpectedToken (text : String)
  | expectedToken (expected found : String)
  | expectedLetName
  | expectedLetEquals
  | expectedLetIn
  | expectedThen
  | expectedElse
  | expectedArrow
  | expectedFunctionBody
  | expectedClosingParen
  | expectedRightOperand (operator : String)
  | internal (reason : String)
  deriving DecidableEq, Repr

namespace Cause

/-- The name of a cause. -/
def name : Cause → String
  | unexpectedEnd => "UnexpectedEndOfInput"
  | unexpectedToken _ => "UnexpectedToken"
  | expectedToken _ _ => "ExpectedToken"
  | expectedLetName => "ExpectedLetIdentifier"
  | expectedLetEquals => "ExpectedLetEquals"
  | expectedLetIn => "ExpectedLetIn"
  | expectedThen => "ExpectedThen"
  | expectedElse => "ExpectedElse"
  | expectedArrow => "ExpectedArrow"
  | expectedFunctionBody => "ExpectedFunctionBody"
  | expectedClosingParen => "ExpectedClosingParen"
  | expectedRightOperand _ => "ExpectedRightOperand"
  | internal _ => "Internal"

/-- The sentence that tells the cause. -/
def message : Cause → String
  | unexpectedEnd => "Unexpected end of input"
  | unexpectedToken text => s!"Unexpected token: {text}"
  | expectedToken expected found => s!"Expected '{expected}', got '{found}'"
  | expectedLetName => "Expected identifier after 'let'"
  | expectedLetEquals => "Expected '=' after variable name in let binding"
  | expectedLetIn => "Expected 'in' after let binding"
  | expectedThen => "Expected 'then' after if condition"
  | expectedElse => "Expected 'else' after then branch"
  | expectedArrow => "Expected '->' in function definition"
  | expectedFunctionBody => "Expected function body after '->'"
  | expectedClosingParen => "Expected closing parenthesis ')'"
  | expectedRightOperand operator => s!"Expected right operand after '{operator}'"
  | internal reason => s!"Error parsing MicroML code: {reason}"

/-- Advice on how to mend the program, for the causes that have one. -/
def tip? : Cause → Option String
  | unexpectedEnd => some "the expression is incomplete"
  | expectedLetIn => some "every `let` binding needs an `in` body"
  | expectedElse => some "`if` expressions always need an `else` branch"
  | expectedClosingParen => some "check for an unbalanced `(`"
  | expectedRightOperand operator => some s!"`{operator}` needs an expression on both sides"
  | _ => none

/-- Whether the cause is a limit of the parser. -/
def isInternal : Cause → Bool
  | internal _ => true
  | _ => false

end Cause

/-- A line of the source, counted from 1, and an index into the tokens. -/
structure Position where
  line : Nat
  tokenIndex : Nat
  deriving DecidableEq, Repr

/-- What went wrong and where. -/
structure Fault where
  cause : Cause
  position : Position
  deriving DecidableEq, Repr

/-- A fault with the text of its line. -/
structure Error where
  cause : Cause
  position : Position
  context : String
  deriving DecidableEq, Repr

end MlFront
