import MlFront.Text.Blank
import MlFront.Token.Kind

/-!
# Lexemes

The lexer cuts a text into lexemes, pieces that together are the whole text. At
each position the classes of `LexClass` are tried in order, and the first one
that takes a character there gives the lexeme; a character that no class takes
is a lexeme of its own, without a class. `LexClass.reach` says how many
characters a class takes.

Keywords must stand between word boundaries, so that `lettuce` is one
identifier. Which characters outside ASCII count as parts of words is left open
as the parameter `word`.
-/

namespace MlFront

/-- The classes of lexemes. -/
inductive LexClass where
  | keyword
  | operator
  | identifier
  | number
  | punctuation
  | whitespace
  deriving DecidableEq, Repr

/-- The texts of a table, as lists of characters. -/
def spellings (table : List (String × Kind)) : List (List Char) :=
  table.map (·.1.toList)

/-- The reserved words. -/
def keywordSpellings : List (List Char) :=
  spellings Kind.reserved

/-- The operators, none after one that it starts with. -/
def operatorSpellings : List (List Char) :=
  spellings Kind.operators

/-- The punctuation characters. -/
def punctuationSpellings : List (List Char) :=
  spellings Kind.punctuation

/-- The length of the first of the spellings that the text starts with and that
`accept` takes, given the rest of the text; 0 when there is none. -/
def reachOfSpelling (accept : List Char → List Char → Bool) (spellings : List (List Char))
    (text : List Char) : Nat :=
  match spellings.find? fun s => s.isPrefixOf text && accept s (text.drop s.length) with
  | some s => s.length
  | none => 0

/-- Whether a word begins or ends between two neighbouring characters. -/
def isWordBoundary (word : Char → Bool) (before after : Option Char) : Bool :=
  before.any word != after.any word

namespace LexClass

/-- The classes in the order in which they are tried. -/
def all : List LexClass :=
  [keyword, operator, identifier, number, punctuation, whitespace]

/-- The name of a class. -/
def name : LexClass → String
  | keyword => "keyword"
  | operator => "operator"
  | identifier => "identifier"
  | number => "number"
  | punctuation => "punctuation"
  | whitespace => "whitespace"

/-- How many characters of a keyword `text` starts with, after the character `before`. -/
def reachKeyword (word : Char → Bool) (before : Option Char) (text : List Char) : Nat :=
  reachOfSpelling
    (fun s rest =>
      isWordBoundary word before text.head? && isWordBoundary word s.getLast? rest.head?)
    keywordSpellings text

/-- How many characters of an identifier the text starts with. -/
def reachIdentifier : List Char → Nat
  | [] => 0
  | c :: rest => if isNameStart c then 1 + (rest.takeWhile isNamePart).length else 0

/-- How many characters of a number the text starts with: digits, and a point
when digits follow it. -/
def reachNumber (text : List Char) : Nat :=
  let whole := (text.takeWhile isDigit).length
  match text.dropWhile isDigit with
  | '.' :: rest =>
    let fraction := (rest.takeWhile isDigit).length
    if whole = 0 || fraction = 0 then whole else whole + 1 + fraction
  | _ => whole

/-- How many characters the class takes from the front of `text`, which comes
after the character `before`; 0 when it takes none. -/
def reach (word : Char → Bool) (before : Option Char) (text : List Char) : LexClass → Nat
  | keyword => reachKeyword word before text
  | operator => reachOfSpelling (fun _ _ => true) operatorSpellings text
  | identifier => reachIdentifier text
  | number => reachNumber text
  | punctuation => reachOfSpelling (fun _ _ => true) punctuationSpellings text
  | whitespace => (text.takeWhile isBlank).length

/-- The first class that takes a character from the front of `text`. -/
def first? (word : Char → Bool) (before : Option Char) (text : List Char) : Option LexClass :=
  all.find? fun c => c.reach word before text != 0

end LexClass

/-- A piece of a text. Its class is absent when no class takes its character. -/
structure Lexeme where
  lexClass : Option LexClass
  text : List Char
  deriving DecidableEq, Repr

namespace Lexeme

/-- Cuts a text, which comes after the character `before`, into lexemes. `done`
holds the lexemes found so far, last first. -/
def cutFrom (word : Char → Bool) (done : List Lexeme) (before : Option Char) :
    List Char → List Lexeme
  | [] => done.reverse
  | c :: rest =>
    let lexClass := LexClass.first? word before (c :: rest)
    let more := lexClass.elim 0 fun k => k.reach word before (c :: rest) - 1
    let text := c :: rest.take more
    cutFrom word (⟨lexClass, text⟩ :: done) text.getLast? (rest.drop more)
  termination_by chars => chars.length
  decreasing_by simp only [List.length_drop, List.length_cons]; omega

/-- The lexemes of a text. -/
def cut (word : Char → Bool) (chars : List Char) : List Lexeme :=
  cutFrom word [] none chars

end Lexeme

end MlFront
