import MlFront.Text.Line

/-!
# Comments

A comment starts at `--` and goes on to the end of its line. `stripComments`
cuts every comment and keeps the line break that ends it.
-/

namespace MlFront

/-- Cuts comments from a text, inside a comment or outside of one. `kept` holds
the characters kept so far, last first. -/
def stripCommentsFrom (inComment : Bool) (kept : List Char) : List Char → List Char
  | [] => kept.reverse
  | c :: rest =>
    if inComment && !isBreak c then stripCommentsFrom true kept rest
    else if c == '-' && rest.head? == some '-' then stripCommentsFrom true kept rest
    else stripCommentsFrom false (c :: kept) rest

/-- The text without its comments. -/
def stripComments (chars : List Char) : List Char :=
  stripCommentsFrom false [] chars

end MlFront
