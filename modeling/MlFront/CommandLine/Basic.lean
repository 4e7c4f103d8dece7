import MlFront.Parser.Entry
import MlFront.Tree.Outline

/-!
# The command line

The program takes one argument, the path of a source file. It prints how many
tokens the file has, how long tokenizing and parsing took, and the outline of
the tree or the report of the error. The exit code is 0 for a program that
parses, 1 for one that does not, and 2 when there is nothing to parse.

`CommandLine.run` is the whole program as a function of the file's content and
of the times; `CommandLine.path` and `CommandLine.result` are its two halves.
-/

namespace MlFront

/-- Why a file could not be read. -/
inductive ReadFailure where
  /-- The system refused, with a text and an error number. -/
  | system (text : String) (number : Nat)
  /-- The content is not text. -/
  | notText
  deriving DecidableEq, Repr

namespace ReadFailure

/-- There is no such file. -/
def notFound : ReadFailure :=
  system "No such file or directory" 2

/-- A file stands where a directory is needed. -/
def notDirectory : ReadFailure :=
  system "Not a directory" 20

/-- The path leads to a directory. -/
def isDirectory : ReadFailure :=
  system "Is a directory" 21

/-- The name of a file or the whole path is too long. -/
def nameTooLong : ReadFailure :=
  system "File name too long" 36

/-- The common failures of the system by error number. -/
def common : List (Nat × ReadFailure) :=
  [(2, notFound), (13, system "Permission denied" 13), (20, notDirectory), (21, isDirectory),
    (36, nameTooLong)]

/-- The failure with an error number, with `text` for the uncommon ones. -/
def ofNumber (number : Nat) (text : String) : ReadFailure :=
  (common.lookup number).getD (system text number)

/-- The sentence that tells the failure. -/
def message : ReadFailure → String
  | system text number => s!"{text} (os error {number})"
  | notText => "stream did not contain valid UTF-8"

end ReadFailure

namespace CommandLine

/-- What the program leaves behind. -/
structure Output where
  exitCode : Nat
  stdout : String
  stderr : String
  deriving DecidableEq, Repr

/-- How long the stages took, as text. -/
structure Times where
  tokenizing : String
  parsing : String
  deriving DecidableEq, Repr

/-- The text of a file, when its bytes are text. -/
def decode (bytes : ByteArray) : Except ReadFailure String :=
  match String.fromUTF8? bytes with
  | some text => .ok text
  | none => .error .notText

/-- The path among the arguments, which must be the only one. -/
def path : List String → Except Output String
  | [path] => .ok path
  | _ => .error ⟨2, "", "Usage: microml <file>\n"⟩

/-- The output for a file that could not be read. -/
def unreadable (path : String) (failure : ReadFailure) : Output :=
  ⟨2, "", s!"Failed to read {path}: {failure.message}\n"⟩

/-- The output for a file with `count` tokens. -/
def result (count : Nat) (parsed : Except Error (Option Node)) (times : Times) : Output :=
  let header :=
    s!"Tokenized {count} tokens in {times.tokenizing}\nParsed in {times.parsing}\n"
  match parsed with
  | .ok (some node) =>
    ⟨0, header ++ node.outline ++ s!"{node.size} nodes, depth {node.depth}\n", ""⟩
  | .ok none => ⟨0, header ++ "(empty program)\n", ""⟩
  | .error error => ⟨1, header ++ error.report ++ "\n", ""⟩

/-- The whole program. `read` gives the content of the file at a path. -/
def run (read : String → Except ReadFailure String) (times : Times) (arguments : List String) :
    Output :=
  match path arguments with
  | .error output => output
  | .ok path =>
    match read path with
    | .error failure => unreadable path failure
    | .ok source =>
      let tokens := tokenize source
      result tokens.length (parse tokens source) times

end CommandLine

end MlFront
