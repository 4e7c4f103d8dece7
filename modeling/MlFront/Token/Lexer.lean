import MlFront.Token.Basic
import MlFront.Token.Comment
import MlFront.Token.Lexeme

/-!
# From source to tokens

`tokenize` strips the comments of a source, cuts the rest into lexemes and turns
them into tokens: whitespace and characters without a class only move the line
number on, every other lexeme is a token. It never fails.
-/

namespace MlFront

/-- Whether the lexeme is dropped: whitespace, or a character without a class. -/
def Lexeme.isDropped (lexeme : Lexeme) : Bool :=
  lexeme.lexClass == none || lexeme.lexClass == some .whitespace

/-- Turns lexemes, the first of which starts on `line`, into tokens. `done`
holds the tokens found so far, last first. -/
def Token.ofLexemesFrom (done : List Token) (line : Nat) : List Lexeme → List Token
  | [] => done.reverse
  | lexeme :: rest =>
    if lexeme.isDropped then ofLexemesFrom done (line + countBreaks lexeme.text) rest
    else ofLexemesFrom (⟨String.ofList lexeme.text, line⟩ :: done) line rest

/-- The tokens of a text without comments, when `word` tells the characters of words. -/
def tokenizeCode (word : Char → Bool) (code : List Char) : List Token :=
  Token.ofLexemesFrom [] 1 (Lexeme.cut word code)

/-- The tokens of a source. -/
def tokenize (source : String) : List Token :=
  tokenizeCode isNamePart (stripComments source.toList)

end MlFront
