import MlFront.Parser.Rule
import MlFront.Parser.Tables

/-!
# Runs of binary operators

`Rule.binary` parses operands joined by operators and groups them by the powers
of the operators. The first operand is the left operand of the first operator;
`Rule.climb` then folds one operator after the other into it. A right operand is
a run of operators again, of tighter ones, so that operators of one power group
to the left. `Rule.binary_run` is the equation between the two.
-/

namespace MlFront

/-- The operator at the cursor with its power, when the tables have one for it. -/
def State.operator? (tables : Tables) (state : State) : Option (String × Power) :=
  state.rest.head?.bind fun token => (tables.power token.kind).map (token.text, ·)

theorem State.length_rest_next_lt {tables : Tables} {state : State} {operator : String × Power}
    (h : state.operator? tables = some operator) :
    state.next.rest.length < state.rest.length := by
  rcases state with ⟨before, _ | ⟨token, rest⟩, nesting⟩
  · cases h
  · simp [State.next]

namespace Rule

/-- Folds the operators from the cursor on into `left`, as long as they bind at
least as tightly as `minimum`. `right` is the rule for a right operand, given the
least power of the operators in it. -/
def climb (tables : Tables) (minimum : Power) {bound : Nat} (right : Power → RuleBelow bound Node)
    (left : Node) (state : State) (inBound : state.rest.length ≤ bound) : Outcome Node :=
  match h : state.operator? tables with
  | none => .ok left state
  | some (operator, power) =>
    if power < minimum then .ok left state
    else if state.next.rest.isEmpty then
      .error (state.next.fault (.expectedRightOperand operator)) state.next
    else
      have hn := State.length_rest_next_lt h
      match right power.tighter state.next (Nat.lt_of_lt_of_le hn inBound) with
      | ⟨.error fault after, _⟩ => .error fault after
      | ⟨.ok node after, hs⟩ =>
        have ha := Nat.lt_trans (hs node after rfl) hn
        if maxDepth < (Node.binary operator left node).depth then
          .error (after.fault .tooDeep) after
        else
          climb tables minimum right (.binary operator left node) after
            (Nat.le_of_lt (Nat.lt_of_lt_of_le ha inBound))
  termination_by state.rest.length

theorem keeps_climb (tables : Tables) (minimum : Power) {bound : Nat}
    (right : Power → RuleBelow bound Node) (left : Node) (state : State)
    (inBound : state.rest.length ≤ bound) :
    Outcome.Keeps (climb tables minimum right left state inBound) state := by
  fun_induction climb tables minimum right left state inBound with
  | case6 left state inBound operator power hop hmin hend hn node after hs hr ha hdeep ih =>
    exact fun value final hf => Nat.le_trans (ih value final hf) (Nat.le_of_lt ha)
  | _ => intro _ _ h; cases h <;> exact Nat.le_refl _

/-- Parses `binary` with the promise that a success leaves fewer tokens. -/
def binaryFrom (tables : Tables) (operand : Rule Node) (minimum : Power) (state : State) :
    { outcome : Outcome Node // outcome.Shortens state } :=
  match h : operand.run state with
  | .error fault after => ⟨.error fault after, fun _ _ he => by cases he⟩
  | .ok left middle =>
    have hm := operand.shortens state left middle h
    ⟨climb tables minimum (fun power after _ => binaryFrom tables operand power after) left middle
        (Nat.le_refl _),
      fun value after he => Nat.lt_of_le_of_lt (keeps_climb _ _ _ _ _ _ value after he) hm⟩
  termination_by state.rest.length

/-- Operands joined by operators that bind at least as tightly as `minimum`. -/
def binary (tables : Tables) (operand : Rule Node) (minimum : Power) : Rule Node where
  step.run state := (binaryFrom tables operand minimum state).val
  shortens state := (binaryFrom tables operand minimum state).property

/-- A run of operators is an operand into which the operators after it are
folded, their right operands being runs of tighter operators. -/
theorem binary_run (tables : Tables) (operand : Rule Node) (minimum : Power) (state : State) :
    (binary tables operand minimum).run state =
      match operand.run state with
      | .error fault after => .error fault after
      | .ok left middle =>
        climb tables minimum (fun power => (binary tables operand power).below _) left middle
          (Nat.le_refl _) := by
  show (binaryFrom tables operand minimum state).val = _
  rw [binaryFrom]
  split
  · next h => simp [h]
  · next h => simp [h]; rfl

end Rule

end MlFront
