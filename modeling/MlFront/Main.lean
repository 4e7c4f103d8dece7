import MlFront.CommandLine.Basic
import MlFront.CommandLine.Elapsed

/-!
# The program

Reads the file, takes the time of tokenizing and parsing, and prints the output.
-/

namespace MlFront.CommandLine

/-- The failure with an error number, which may have been given as a negative one. -/
def failureOf (number : UInt32) (text : String) : ReadFailure :=
  .ofNumber (number.toInt32.toInt.natAbs) text

/-- The failure that an error of the system stands for. -/
def failureOfError : IO.Error → ReadFailure
  | .noFileOrDirectory _ number text => failureOf number text
  | .permissionDenied _ number text => failureOf number text
  | .resourceExhausted _ number text => failureOf number text
  | .inappropriateType _ number text => failureOf number text
  | .invalidArgument _ number text => failureOf number text
  | .interrupted _ number text => failureOf number text
  | .otherError number text => failureOf number text
  | .hardwareFault number text => failureOf number text
  | .illegalOperation number text => failureOf number text
  | error => .system error.toString 0

/-- The text of the file at a path. -/
def readSource (path : String) : IO (Except ReadFailure String) := do
  try
    return decode (← IO.FS.readBinFile path)
  catch error =>
    return .error (failureOfError error)

/-- Runs the program on the file at a path. -/
def runFile (path : String) : IO Output := do
  match ← readSource path with
  | .error failure => return unreadable path failure
  | .ok source =>
    let start ← IO.monoNanosNow
    let tokens ← IO.lazyPure fun _ => tokenize source
    let middle ← IO.monoNanosNow
    let parsed ← IO.lazyPure fun _ => parse tokens source
    let finish ← IO.monoNanosNow
    return result tokens.length parsed ⟨elapsedText (middle - start), elapsedText (finish - middle)⟩

end MlFront.CommandLine

open MlFront.CommandLine in
/-- The command line program. -/
def main (arguments : List String) : IO UInt32 := do
  let output ←
    match path arguments with
    | .error output => pure output
    | .ok path => runFile path
  IO.print output.stdout
  IO.eprint output.stderr
  return output.exitCode.toUInt32
