import MlFront.Token.Kind

/-!
# Tokens

A token is its text and the line it starts on. Its kind is not stored:
`Token.kind` finds it from the text.
-/

namespace MlFront

/-- A piece of text with the number of the line it starts on, counted from 1. -/
structure Token where
  text : String
  line : Nat
  deriving DecidableEq, Repr

namespace Token

/-- The kind of the token's text. -/
def kind (token : Token) : Kind :=
  .ofText token.text

/-- Whether the text has the shape of an identifier. Reserved words have it too. -/
def isNameShaped (token : Token) : Bool :=
  MlFront.isNameShaped token.text.toList

/-- Whether the token's kind is among the given ones. -/
def isOneOf (token : Token) (kinds : List Kind) : Bool :=
  kinds.contains token.kind

/-- Whether the token ends a run of arguments. -/
def isTerminator (token : Token) : Bool :=
  token.kind.isTerminator

/-- Whether the token is an operator that stands between two operands. -/
def isBinaryOperator (token : Token) : Bool :=
  token.kind.isBinaryOperator

end Token

end MlFront
