import MlFront.Error.Basic
import MlFront.Text.Line

/-!
# Error reports

`Fault.inSource` finds the line that a fault is blamed on, `Error.summary` tells
an error in one line and `Error.report` in six, the source line among them.
-/

namespace MlFront

/-- The fault as an error of the source: its context is the line it is blamed on. -/
def Fault.inSource (source : String) (fault : Fault) : Error :=
  ⟨fault.cause, fault.position, lineContext source fault.position.line⟩

namespace Error

/-- The line of an error and its message. -/
def summary (error : Error) : String :=
  s!"line {error.position.line}: {error.cause.message}"

/-- The name of an error, with the tip when there is one. -/
def title (error : Error) : String :=
  match error.cause.tip? with
  | none => error.cause.name
  | some tip => s!"{error.cause.name} ({tip})"

/-- An error with its source line, framed on the left. The frame stands one
column to the right of the line number. -/
def report (error : Error) : String :=
  let line := toString error.position.line
  let margin := "".pushn ' ' (line.length + 1)
  s!"Error: {error.title}\n" ++
  s!"-> line {line}, token {error.position.tokenIndex}\n" ++
  s!"{margin}|\n" ++
  s!"{line} | {error.context}\n" ++
  s!"{margin}|\n" ++
  s!"{margin}= {error.cause.message}"

end Error

end MlFront
