import MlFront.Error.Report
import MlFront.Parser.Expression
import MlFront.Token.Lexer

/-!
# Parsing from a state

`Entry` names the rules for nodes. `Entry.step` and `Form.step` run a rule from any
state: the expressions that are open there count towards the limit on nesting.
A whole program is parsed by `parse` and `parseSource`.
-/

namespace MlFront

/-- The rules for nodes by name. -/
inductive Entry where
  | expression
  | binary (minimum : Power)
  | application
  | primary
  | grouping
  deriving DecidableEq, Repr

/-- The rule with the given name, when `levels` more expressions may be opened. -/
def Entry.rule (tables : Tables) (levels : Nat) : Entry → Rule Node
  | expression => .expression tables levels
  | binary minimum => .binary tables (.application (.expression tables levels)) minimum
  | application => .application (.expression tables levels)
  | primary => .primary (.expression tables levels)
  | grouping => .grouping (.expression tables levels)

/-- Runs a rule for nodes from the state it is given. -/
def Entry.step (tables : Tables) (entry : Entry) : ParseM Node where
  run state := (entry.rule tables state.levelsLeft).run state

/-- Runs the rule of a form, up to its last expression, from the state it is given. -/
def Form.step (tables : Tables) (form : Form) : ParseM OpenForm where
  run state := (form.rule (.expression tables state.levelsLeft)).run state

/-- Parses tokens as one expression. Tokens after the expression are ignored,
and without tokens there is no expression. -/
def parseTokens (tokens : List Token) : Except Fault (Option Node) :=
  if tokens.isEmpty then .ok none
  else
    match (Entry.expression.step .standard).run (.start tokens) with
    | .ok node _ => .ok (some node)
    | .error fault _ => .error fault

/-- Parses tokens; faults are shown in `source`. -/
def parse (tokens : List Token) (source : String) : Except Error (Option Node) :=
  (parseTokens tokens).mapError (·.inSource source)

/-- Parses a source. -/
def parseSource (source : String) : Except Error (Option Node) :=
  parse (tokenize source) source

end MlFront
