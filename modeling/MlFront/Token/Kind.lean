import MlFront.Text.Digit

/-!
# Kinds of tokens

`Kind` is what a token is, and `Kind.ofText` finds it from the token's text
alone. Words, operators and punctuation are looked up in three tables;
identifiers and numbers are recognised by their shape. A reserved word has the
shape of an identifier too, so the table of words is asked first.
-/

namespace MlFront

/-- What a token is. `unrecognised` is a text that the lexer never produces. -/
inductive Kind where
  | number
  | identifier
  | openParen
  | closeParen
  | openCurly
  | closeCurly
  | openBracket
  | closeBracket
  | semicolon
  | comma
  | arrow
  | assignment
  | equals
  | notEquals
  | less
  | lessEquals
  | greater
  | greaterEquals
  | plus
  | dash
  | star
  | slash
  | kwLet
  | kwIn
  | kwIf
  | kwThen
  | kwElse
  | kwTrue
  | kwFalse
  | kwFn
  | unrecognised
  deriving DecidableEq, Repr

namespace Kind

/-- Every kind once. -/
def all : List Kind :=
  [number, identifier, openParen, closeParen, openCurly, closeCurly, openBracket, closeBracket,
    semicolon, comma, arrow, assignment, equals, notEquals, less, lessEquals, greater,
    greaterEquals, plus, dash, star, slash, kwLet, kwIn, kwIf, kwThen, kwElse, kwTrue, kwFalse,
    kwFn, unrecognised]

/-- The name of a kind. -/
def name : Kind → String
  | number => "Number"
  | identifier => "Identifier"
  | openParen => "OpenParen"
  | closeParen => "CloseParen"
  | openCurly => "OpenCurly"
  | closeCurly => "CloseCurly"
  | openBracket => "OpenBracket"
  | closeBracket => "CloseBracket"
  | semicolon => "Semicolon"
  | comma => "Comma"
  | arrow => "Arrow"
  | assignment => "Assignment"
  | equals => "Equals"
  | notEquals => "NotEquals"
  | less => "Less"
  | lessEquals => "LessEquals"
  | greater => "Greater"
  | greaterEquals => "GreaterEquals"
  | plus => "Plus"
  | dash => "Dash"
  | star => "Star"
  | slash => "Slash"
  | kwLet => "Let"
  | kwIn => "In"
  | kwIf => "If"
  | kwThen => "Then"
  | kwElse => "Else"
  | kwTrue => "True"
  | kwFalse => "False"
  | kwFn => "Fn"
  | unrecognised => "Unrecognised"

/-- The kind with the given name. -/
def ofName? (text : String) : Option Kind :=
  all.find? (·.name == text)

/-- Every kind once, in the order of the names. -/
def byName : List Kind :=
  all.mergeSort fun a b => a.name ≤ b.name

/-- The words with a meaning of their own. -/
def reserved : List (String × Kind) :=
  [("let", kwLet), ("in", kwIn), ("if", kwIf), ("then", kwThen), ("else", kwElse),
    ("true", kwTrue), ("false", kwFalse), ("fn", kwFn)]

/-- The operators. One that starts with another stands before it. -/
def operators : List (String × Kind) :=
  [("->", arrow), ("<=", lessEquals), (">=", greaterEquals), ("==", equals), ("!=", notEquals),
    ("+", plus), ("-", dash), ("*", star), ("/", slash), ("=", assignment), ("<", less),
    (">", greater)]

/-- Brackets and separators. -/
def punctuation : List (String × Kind) :=
  [("(", openParen), (")", closeParen), ("\x7b", openCurly), ("\x7d", closeCurly),
    ("[", openBracket), ("]", closeBracket), (";", semicolon), (",", comma)]

/-- Whether the kind ends a run of arguments: `)`, `;`, `in`, `then` or `else`. -/
def isTerminator : Kind → Bool
  | closeParen | semicolon | kwIn | kwThen | kwElse => true
  | _ => false

/-- Whether the kind is one of the ten operators that stand between two operands. -/
def isBinaryOperator : Kind → Bool
  | plus | dash | star | slash | equals | notEquals | less | greater | lessEquals
  | greaterEquals => true
  | _ => false

theorem mem_all (kind : Kind) : kind ∈ all := by
  cases kind <;> decide

end Kind

/-! ## Shapes of texts -/

/-- Whether an identifier may start with the character: an ASCII letter or `_`. -/
def isNameStart (c : Char) : Bool :=
  c.isAlpha || c == '_'

/-- Whether an identifier may go on with the character: an ASCII letter or digit, or `_`. -/
def isNamePart (c : Char) : Bool :=
  c.isAlphanum || c == '_'

/-- Whether the whole text has the shape of an identifier. -/
def isNameShaped : List Char → Bool
  | [] => false
  | c :: rest => isNameStart c && rest.all isNamePart

/-- Whether the text is digits alone, at least one. -/
def isDigits (chars : List Char) : Bool :=
  !chars.isEmpty && chars.all isDigit

/-- Whether the whole text has the shape of a number: digits, and perhaps a
point with digits after it. -/
def isNumberShaped (chars : List Char) : Bool :=
  match chars.dropWhile isDigit with
  | [] => isDigits chars
  | c :: fraction => c == '.' && isDigits (chars.takeWhile isDigit) && isDigits fraction

/-- The kind of a text: a reserved word, an operator, an identifier, a number or
a punctuation character, in this order, else `unrecognised`. -/
def Kind.ofText (text : String) : Kind :=
  match reserved.lookup text with
  | some kind => kind
  | none =>
    match operators.lookup text with
    | some kind => kind
    | none =>
      if isNameShaped text.toList then identifier
      else if isNumberShaped text.toList then number
      else (punctuation.lookup text).getD unrecognised

end MlFront
