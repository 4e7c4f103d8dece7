import MlFront.Text.Blank

/-!
# Lines of a text

A line ends at `\r\n`, at `\n` or at a `\r` on its own. `countBreaks` counts
the breaks of a text, `splitLines` cuts the text at them, and `lineContext`
gives one line by number, trimmed, for an error report.
-/

namespace MlFront

/-- Whether the character belongs to a line break. -/
def isBreak (c : Char) : Bool :=
  c == '\n' || c == '\r'

/-- Whether a line break ends at `c`, given the text after it: the `\r` of a
`\r\n` pair leaves the break to its `\n`. -/
def endsBreak (c : Char) (rest : List Char) : Bool :=
  c == '\n' || (c == '\r' && rest.head? != some '\n')

/-- Adds the line breaks of a text to `count`. -/
def countBreaksFrom (count : Nat) : List Char → Nat
  | [] => count
  | c :: rest => countBreaksFrom (if endsBreak c rest then count + 1 else count) rest

/-- The number of line breaks in a text. -/
def countBreaks (chars : List Char) : Nat :=
  countBreaksFrom 0 chars

/-- Cuts a text into lines: `line` holds the characters of the open line and
`done` the closed lines, both last first. -/
def splitLinesFrom (done : List (List Char)) (line : List Char) : List Char → List (List Char)
  | [] => (line.reverse :: done).reverse
  | '\r' :: '\n' :: rest => splitLinesFrom (line.reverse :: done) [] rest
  | c :: rest =>
    if isBreak c then splitLinesFrom (line.reverse :: done) [] rest
    else splitLinesFrom done (c :: line) rest

/-- The lines of a text, without their breaks. There is always at least one. -/
def splitLines (chars : List Char) : List (List Char) :=
  splitLinesFrom [] [] chars

/-- Line `number` of the source, counted from 1 and trimmed; empty when the
source has no such line. -/
def lineContext (source : String) : (number : Nat) → String
  | 0 => ""
  | index + 1 =>
    match (splitLines source.toList)[index]? with
    | some line => String.ofList (trim line)
    | none => ""

/-! ## Counting from a start value -/

theorem countBreaksFrom_eq (count : Nat) (chars : List Char) :
    countBreaksFrom count chars = count + countBreaks chars := by
  induction chars generalizing count with
  | nil => rfl
  | cons c rest ih =>
    simp only [countBreaks, countBreaksFrom]
    rw [ih, ih (if endsBreak c rest then 0 + 1 else 0)]
    split <;> omega

@[simp] theorem countBreaks_nil : countBreaks [] = 0 := rfl

theorem countBreaks_cons (c : Char) (rest : List Char) :
    countBreaks (c :: rest) = (if endsBreak c rest then 1 else 0) + countBreaks rest := by
  rw [countBreaks, countBreaksFrom, countBreaksFrom_eq]

end MlFront
