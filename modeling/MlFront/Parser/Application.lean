import MlFront.Parser.Rule

/-!
# Primaries and applications

A *primary* is a literal, a name or an expression in parentheses. An
*application* is a primary with the primaries that follow it as its arguments.
Each is chosen by the current token alone. `inner` is the rule for the
expression in parentheses.
-/

namespace MlFront.Rule

open ParseM

/-- An expression in parentheses. -/
def grouping (inner : Rule Node) : Rule Node where
  step := do
    let _ ← expect "("
    let node ← inner.step
    let _ ← expectOr ")" (·.fault .expectedClosingParen)
    return node
  shortens :=
    (shortens_expect _).bind fun _ =>
    inner.shortens.keeps.bind fun _ =>
    (shortens_expectOr _ _).keeps.bind fun _ =>
    keeps_pure _

/-- A literal, a name or a grouping. A reserved word other than `true` and
`false` is a name here. -/
def primary (inner : Rule Node) : Rule Node where
  step.run state :=
    match state.rest with
    | [] => .error (state.fault .unexpectedEnd) state
    | token :: _ =>
      match token.kind with
      | .number => .ok (.literal .number token.text) state.next
      | .kwTrue | .kwFalse => .ok (.literal .boolean token.text) state.next
      | .openParen => (grouping inner).run state
      | _ =>
        if token.isNameShaped then .ok (.identifier token.text) state.next
        else .error (state.fault (.unexpectedToken token.text)) state
  shortens := by
    intro state value after h
    simp only at h
    split at h
    · cases h
    · next token rest hr =>
      have hn : state.next.rest.length < state.rest.length := by
        simp [State.length_rest_next, hr]
      split at h
      · cases h; exact hn
      · cases h; exact hn
      · cases h; exact hn
      · exact (grouping inner).shortens state value after h
      · split at h
        · cases h; exact hn
        · cases h

/-- Adds the arguments of an application to `done`, which is last first. They
end before a terminator, a binary operator or the end of the tokens. -/
def arguments (argument : Rule Node) (done : List Node) (state : State) : Outcome (List Node) :=
  match state.rest with
  | [] => .ok done.reverse state
  | token :: _ =>
    if token.isTerminator || token.isBinaryOperator then .ok done.reverse state
    else
      match h : argument.run state with
      | .error fault after => .error fault after
      | .ok node after =>
        have := argument.shortens state node after h
        arguments argument (node :: done) after
  termination_by state.rest.length

theorem keeps_arguments (argument : Rule Node) (done : List Node) :
    ParseM.Keeps ⟨arguments argument done⟩ := by
  intro state
  simp only
  fun_induction arguments argument done state with
  | case1 => intro _ _ h; cases h; exact Nat.le_refl _
  | case2 => intro _ _ h; cases h; exact Nat.le_refl _
  | case3 => intro _ _ h; cases h
  | case4 _ _ _ _ _ _ _ _ _ h ih =>
    exact fun value final hf => Nat.le_trans (ih value final hf) (Nat.le_of_lt h)

/-- The node of a callee with its arguments: the callee itself when there are none. -/
def applied (callee : Node) : List Node → ParseM Node
  | [] => pure callee
  | argument :: rest => build (.apply callee (argument :: rest))

/-- A primary with its arguments. -/
def application (inner : Rule Node) : Rule Node where
  step := do
    let callee ← (primary inner).step
    let list ← .mk (arguments (primary inner) [])
    applied callee list
  shortens :=
    (primary inner).shortens.bind fun _ =>
    (keeps_arguments _ _).bind fun list => by
      cases list with
      | nil => exact keeps_pure _
      | cons => exact keeps_build _

end MlFront.Rule
