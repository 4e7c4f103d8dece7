import MlFront.Proofs.Parser.Steps

/-!
# Rules that call each other

The rules once more, as they call each other: `Call` names them, and `Call.body` is
what a rule does, given how the rules that it calls are run. Each call spends one
unit of fuel (`Call.run`), and the loops inside of a rule spend none, so the fuel
bounds how deep the calls are nested. A step of this kind (`FuelM`) has no outcome
when its fuel runs out or when a loop does not come to an end.
-/

namespace MlFront

open ParseM

/-- A step of a parse that need not come to an end. -/
structure FuelM (α : Type) where
  run : State → Option (Outcome α)

namespace FuelM

variable {α β : Type}

instance : Monad FuelM where
  pure value := ⟨fun state => some (.ok value state)⟩
  bind step next := ⟨fun state =>
    match step.run state with
    | some (.ok value after) => (next value).run after
    | some (.error fault after) => some (.error fault after)
    | none => none⟩

instance : MonadLift ParseM FuelM where
  monadLift step := ⟨fun state => some (step.run state)⟩

/-- The step that has no fuel to be run with. -/
def outOfFuel : FuelM α where
  run _ := none

/-- Runs a step and then closes an expression, whether the step succeeds or fails. -/
def closing (step : FuelM α) : FuelM α where
  run state :=
    match step.run state with
    | some (.ok value after) => some (.ok value after.closeOne)
    | some (.error fault after) => some (.error fault after.closeOne)
    | none => none

/-- Repeats `turn` with the values it gives on the left, until it gives one on the
right. A turn that takes no token is not followed by another: the loop would not end. -/
def loopFrom (turn : β → FuelM (β ⊕ α)) (value : β) (state : State) : Option (Outcome α) :=
  match (turn value).run state with
  | some (.ok (.inl value) after) =>
    if after.rest.length < state.rest.length then loopFrom turn value after else none
  | some (.ok (.inr value) after) => some (.ok value after)
  | some (.error fault after) => some (.error fault after)
  | none => none
  termination_by state.rest.length

/-- `loopFrom` as a step of a parse. -/
def loop (turn : β → FuelM (β ⊕ α)) (value : β) : FuelM α :=
  ⟨loopFrom turn value⟩

end FuelM

/-- The rules by name, each with the type of its values. -/
inductive Call : Type → Type where
  | expression : Call Node
  | chain : Call Node
  | binary (minimum : Power) : Call Node
  | application : Call Node
  | primary : Call Node
  | grouping : Call Node
  | opening (form : Form) : Call OpenForm

namespace Call

variable (tables : Tables) (call : {β : Type} → Call β → FuelM β)

/-- One turn of the loop over the arguments of an application. -/
def argumentTurn (done : List Node) : FuelM (List Node ⊕ List Node) := do
  match ← current? with
  | none => return .inr done.reverse
  | some token =>
    if token.isTerminator || token.isBinaryOperator then return .inr done.reverse
    else
      let node ← call primary
      return .inl (node :: done)

/-- One turn of the loop over the operators of a run. -/
def foldTurn (minimum : Power) (left : Node) : FuelM (Node ⊕ Node) := do
  match ← operator? tables with
  | none => return .inr left
  | some (operator, power) =>
    if power < minimum then return .inr left
    else
      let _ ← advance
      more (.expectedRightOperand operator)
      let right ← call (binary power.tighter)
      let node ← build (.binary operator left right)
      return .inl node

/-- One turn of the loop over the open forms of an expression. -/
def chainTurn (waiting : List OpenForm) : FuelM (List OpenForm ⊕ Node) := do
  match ← current? with
  | none => ParseM.fail .unexpectedEnd
  | some token =>
    match tables.form token.kind with
    | none =>
      let node ← call (binary .relational)
      let node ← Rule.closeAll waiting node
      return .inr node
    | some form =>
      let opened ← call (opening form)
      return .inl (opened :: waiting)

/-- What a rule does, when `call` runs the rules that it calls. -/
def body : {α : Type} → Call α → FuelM α
  | _, expression => do
    descend
    FuelM.closing (call chain)
  | _, chain => FuelM.loop (chainTurn tables call) []
  | _, binary minimum => do
    let left ← call application
    FuelM.loop (foldTurn tables call minimum) left
  | _, application => do
    let callee ← call primary
    let list ← FuelM.loop (argumentTurn call) []
    Rule.applied callee list
  | _, primary => do
    match ← current? with
    | none => ParseM.fail .unexpectedEnd
    | some token =>
      match token.kind with
      | .number =>
        let _ ← advance
        return .literal .number token.text
      | .kwTrue | .kwFalse =>
        let _ ← advance
        return .literal .boolean token.text
      | .openParen => call grouping
      | _ =>
        if token.isNameShaped then
          let _ ← advance
          return .identifier token.text
        else ParseM.fail (.unexpectedToken token.text)
  | _, grouping => do
    let _ ← expect "("
    let node ← call expression
    let _ ← expectOr ")" (·.fault .expectedClosingParen)
    return node
  | _, opening .letIn => do
    let line ← currentLine
    let _ ← expect "let"
    let name ← nameOr .expectedLetName line
    let _ ← expectOr "=" (·.faultAt .expectedLetEquals line)
    let value ← call expression
    let _ ← expectOr "in" (·.faultAt .expectedLetIn line)
    return .letIn name value
  | _, opening .ifThenElse => do
    let line ← currentLine
    let _ ← expect "if"
    let condition ← call expression
    let _ ← expectOr "then" (·.faultAt .expectedThen line)
    let thenBranch ← call expression
    let _ ← expectOr "else" (·.faultAt .expectedElse line)
    return .ifThenElse condition thenBranch
  | _, opening .function => do
    let line ← currentLine
    let _ ← expect "fn"
    let names ← parameters
    arrow names line
    return .function names

/-- Runs a rule with some fuel. The rules that it calls are run with one unit less. -/
def run : (fuel : Nat) → {α : Type} → Call α → FuelM α
  | 0, _, _ => .outOfFuel
  | fuel + 1, _, rule => rule.body tables (run fuel)

end Call

/-- Parses tokens with some fuel for the calls of the rules. There is no result when
the fuel does not suffice. -/
def parseWithin (fuel : Nat) (tokens : List Token) (source : String) :
    Option (Except Error (Option Node)) :=
  if tokens.isEmpty then some (.ok none)
  else
    match (Call.expression.run .standard fuel).run (.start tokens) with
    | some (.ok node _) => some (.ok (some node))
    | some (.error fault _) => some (.error (fault.inSource source))
    | none => none

end MlFront
