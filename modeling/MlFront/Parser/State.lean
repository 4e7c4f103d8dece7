import MlFront.Error.Basic
import MlFront.Token.Basic
import MlFront.Tree.Basic

/-!
# The state of a parse

A parse walks over the tokens from left to right and never back. `State` holds
the tokens on both sides of the cursor and the number of expressions that are
open around it. `ParseM` is a step of a parse: it moves the state on and gives a
value or a `Fault`, and the state is kept also when it fails.

Two limits bound what the parser takes on: `maxNesting` expressions inside each
other, and trees of `maxDepth` levels.
-/

namespace MlFront

/-- The greatest number of expressions that may be open at once. -/
def maxNesting : Nat := 200

/-- The greatest depth of a tree. -/
def maxDepth : Nat := 2000

/-- The cause of going beyond `maxNesting`. -/
def Cause.tooNested : Cause :=
  internal s!"expression nesting exceeds {maxNesting} levels"

/-- The cause of going beyond `maxDepth`. -/
def Cause.tooDeep : Cause :=
  internal s!"expression tree exceeds {maxDepth} levels"

/-- A cursor into a list of tokens, with the number of open expressions. -/
structure State where
  /-- The tokens before the cursor, last first. -/
  before : List Token
  /-- The tokens from the cursor on. -/
  rest : List Token
  /-- The number of expressions open around the cursor. -/
  nesting : Nat
  deriving DecidableEq, Repr

namespace State

/-- The state at the start of some tokens. -/
def start (tokens : List Token) : State :=
  ⟨[], tokens, 0⟩

/-- All tokens, on both sides of the cursor. -/
def tokens (state : State) : List Token :=
  state.before.reverse ++ state.rest

/-- The number of tokens before the cursor. -/
def index (state : State) : Nat :=
  state.before.length

/-- The line of the current token, at the end the line of the last token. It is
1 when there are no tokens. -/
def line (state : State) : Nat :=
  match state.rest, state.before with
  | token :: _, _ => token.line
  | [], token :: _ => token.line
  | [], [] => 1

/-- The line and the index of the cursor. -/
def position (state : State) : Position :=
  ⟨state.line, state.index⟩

/-- A fault at the cursor, blamed on the given line. -/
def faultAt (state : State) (cause : Cause) (line : Nat) : Fault :=
  ⟨cause, ⟨line, state.index⟩⟩

/-- A fault at the cursor, blamed on the current line. -/
def fault (state : State) (cause : Cause) : Fault :=
  state.faultAt cause state.line

/-- Moves the cursor over the given number of tokens, at most to the end. -/
def skip (state : State) (count : Nat) : State :=
  ⟨(state.rest.take count).reverse ++ state.before, state.rest.drop count, state.nesting⟩

/-- Moves the cursor over the current token. -/
def next (state : State) : State :=
  match state.rest with
  | [] => state
  | token :: rest => ⟨token :: state.before, rest, state.nesting⟩

/-- The state after some expressions are closed, at most all that are open. -/
def closeMany (state : State) (count : Nat) : State :=
  { state with nesting := state.nesting - count }

/-- The state after one expression is closed. -/
def closeOne (state : State) : State :=
  state.closeMany 1

/-- How many more expressions may be opened. -/
def levelsLeft (state : State) : Nat :=
  maxNesting - state.nesting

@[simp] theorem tokens_start (tokens : List Token) : (start tokens).tokens = tokens := rfl

@[simp] theorem tokens_skip (state : State) (count : Nat) :
    (state.skip count).tokens = state.tokens := by
  simp [tokens, skip]

theorem next_eq_skip (state : State) : state.next = state.skip 1 := by
  rcases state with ⟨before, _ | ⟨token, rest⟩, nesting⟩ <;> rfl

@[simp] theorem tokens_next (state : State) : state.next.tokens = state.tokens := by
  rw [next_eq_skip, tokens_skip]

theorem length_rest_next (state : State) : state.next.rest.length = state.rest.length - 1 := by
  rcases state with ⟨before, _ | ⟨token, rest⟩, nesting⟩ <;> rfl

end State

/-- What a step of a parse ends with: a value or a fault, and the state it leaves. -/
inductive Outcome (α : Type) where
  | ok (value : α) (after : State)
  | error (fault : Fault) (after : State)
  deriving DecidableEq, Repr

/-- Goes on with the value and the state of a success. -/
def Outcome.andThen {α β : Type} : Outcome α → (α → State → Outcome β) → Outcome β
  | ok value after, next => next value after
  | error fault after, _ => .error fault after

/-- A step of a parse. -/
structure ParseM (α : Type) where
  run : State → Outcome α

namespace ParseM

instance : Monad ParseM where
  pure value := ⟨.ok value⟩
  bind step next := ⟨fun state => (step.run state).andThen fun value => (next value).run⟩

@[simp] theorem run_pure {α : Type} (value : α) (state : State) :
    (pure value : ParseM α).run state = .ok value state := rfl

@[simp] theorem run_bind {α β : Type} (step : ParseM α) (next : α → ParseM β) (state : State) :
    (step >>= next).run state = (step.run state).andThen fun value => (next value).run := rfl

/-- Fails at the cursor, blaming the current line. -/
def fail {α : Type} (cause : Cause) : ParseM α where
  run state := .error (state.fault cause) state

/-- The current line. -/
def currentLine : ParseM Nat where
  run state := .ok state.line state

/-- The current token, if any. -/
def current? : ParseM (Option Token) where
  run state := .ok state.rest.head? state

/-- Takes the current token, if any. -/
def advance : ParseM (Option Token) where
  run state := .ok state.rest.head? state.next

/-- Takes the current token if its text is `text`, else fails with `fault`. -/
def expectOr (text : String) (fault : State → Fault) : ParseM Token where
  run state :=
    match state.rest with
    | token :: _ => if token.text = text then .ok token state.next else .error (fault state) state
    | [] => .error (fault state) state

/-- Takes the current token if its text is `text`, else tells what it found. -/
def expect (text : String) : ParseM Token :=
  expectOr text fun state =>
    state.fault (.expectedToken text ((state.rest.head?.map (·.text)).getD "end of input"))

/-- Opens an expression. The count stays raised when the limit is passed. -/
def descend : ParseM Unit where
  run state :=
    let state := { state with nesting := state.nesting + 1 }
    if maxNesting < state.nesting then .error (state.fault .tooNested) state else .ok () state

/-- Runs a step and then closes an expression, whether the step succeeds or fails. -/
def closing {α : Type} (step : ParseM α) : ParseM α where
  run state :=
    match step.run state with
    | .ok value after => .ok value after.closeOne
    | .error fault after => .error fault after.closeOne

/-- Accepts a node unless it is too deep. -/
def build (node : Node) : ParseM Node where
  run state :=
    if maxDepth < node.depth then .error (state.fault .tooDeep) state else .ok node state

end ParseM

end MlFront
