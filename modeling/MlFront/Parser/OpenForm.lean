import MlFront.Parser.Rule
import MlFront.Parser.Tables

/-!
# Open forms

A form such as `let x = 1 in` ends with an expression that runs on as far as it
can. Everything before that expression is an `OpenForm`, and `OpenForm.close`
makes the node once the expression is there. `Form.rule` parses the open form of
each keyword, given the rule for the expressions inside it. All faults found
here are blamed on the line of the keyword.
-/

namespace MlFront

/-- A form that waits for its last expression: the body of a `let`, the
`else` branch of an `if`, the body of a function. -/
inductive OpenForm where
  | letIn (name : String) (value : Node)
  | ifThenElse (condition thenBranch : Node)
  | function (parameters : List String)
  deriving DecidableEq, Repr

/-- The node of a form with its last expression. -/
def OpenForm.close : OpenForm → Node → Node
  | letIn name value, body => .letBind name value body
  | ifThenElse condition thenBranch, elseBranch => .branch condition thenBranch elseBranch
  | function parameters, body => .lambda parameters body

/-- Whether the token may be a parameter of a function. -/
def Token.isParameter (token : Token) : Bool :=
  token.kind != .arrow && token.isNameShaped

namespace ParseM

/-- Takes a token with the shape of an identifier and gives its text. -/
def nameOr (cause : Cause) (line : Nat) : ParseM String where
  run state :=
    match state.rest with
    | token :: _ =>
      if token.isNameShaped then .ok token.text state.next
      else .error (state.faultAt cause line) state
    | [] => .error (state.faultAt cause line) state

/-- Takes parameters as long as there are any and gives their names. -/
def parameters : ParseM (List String) where
  run state :=
    let tokens := state.rest.takeWhile (·.isParameter)
    .ok (tokens.map (·.text)) (state.skip tokens.length)

/-- Takes the arrow of a function with the given parameters, of which there must
be at least one. Something has to follow the arrow. -/
def arrow (parameters : List String) (line : Nat) : ParseM Unit where
  run state :=
    if parameters.isEmpty || state.rest.head?.map (·.kind) != some .arrow then
      .error (state.faultAt .expectedArrow line) state
    else if state.next.rest.isEmpty then
      .error (state.next.faultAt .expectedFunctionBody line) state.next
    else .ok () state.next

theorem keeps_nameOr (cause : Cause) (line : Nat) : (nameOr cause line).Keeps := by
  intro state value after h
  rcases state with ⟨before, _ | ⟨token, rest⟩, nesting⟩
  · cases h
  · simp only [nameOr] at h
    split at h
    · cases h
      simp [State.next]
    · cases h

theorem keeps_parameters : parameters.Keeps := by
  intro state value after h
  cases h
  simp [State.skip]

theorem keeps_arrow (names : List String) (line : Nat) : (arrow names line).Keeps := by
  intro state value after h
  simp only [arrow] at h
  split at h
  · cases h
  · split at h
    · cases h
    · cases h
      simp [State.length_rest_next]

end ParseM

namespace Rule

open ParseM

/-- The rule `let name = value in`. -/
def letIn (inner : Rule Node) : Rule OpenForm where
  step := do
    let line ← currentLine
    let _ ← expect "let"
    let name ← nameOr .expectedLetName line
    let _ ← expectOr "=" (·.faultAt .expectedLetEquals line)
    let value ← inner.step
    let _ ← expectOr "in" (·.faultAt .expectedLetIn line)
    return .letIn name value
  shortens :=
    keeps_currentLine.bind_shortens fun _ =>
    (shortens_expect _).bind fun _ =>
    (keeps_nameOr _ _).bind fun _ =>
    (shortens_expectOr _ _).keeps.bind fun _ =>
    inner.shortens.keeps.bind fun _ =>
    (shortens_expectOr _ _).keeps.bind fun _ =>
    keeps_pure _

/-- The rule `if condition then thenBranch else`. -/
def ifThenElse (inner : Rule Node) : Rule OpenForm where
  step := do
    let line ← currentLine
    let _ ← expect "if"
    let condition ← inner.step
    let _ ← expectOr "then" (·.faultAt .expectedThen line)
    let thenBranch ← inner.step
    let _ ← expectOr "else" (·.faultAt .expectedElse line)
    return .ifThenElse condition thenBranch
  shortens :=
    keeps_currentLine.bind_shortens fun _ =>
    (shortens_expect _).bind fun _ =>
    inner.shortens.keeps.bind fun _ =>
    (shortens_expectOr _ _).keeps.bind fun _ =>
    inner.shortens.keeps.bind fun _ =>
    (shortens_expectOr _ _).keeps.bind fun _ =>
    keeps_pure _

/-- The rule `fn parameters ->`. -/
def function : Rule OpenForm where
  step := do
    let line ← currentLine
    let _ ← expect "fn"
    let names ← parameters
    arrow names line
    return .function names
  shortens :=
    keeps_currentLine.bind_shortens fun _ =>
    (shortens_expect _).bind fun _ =>
    keeps_parameters.bind fun _ =>
    (keeps_arrow _ _).bind fun _ =>
    keeps_pure _

end Rule

/-- The rule of a form, up to its last expression. -/
def Form.rule (inner : Rule Node) : Form → Rule OpenForm
  | letIn => .letIn inner
  | ifThenElse => .ifThenElse inner
  | function => .function

end MlFront
