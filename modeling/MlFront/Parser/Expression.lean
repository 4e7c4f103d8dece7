import MlFront.Parser.Application
import MlFront.Parser.Binary
import MlFront.Parser.OpenForm

/-!
# Expressions

An expression is any number of open forms and a run of binary operators after
them, in which the operands are applications. `Rule.expression` is defined by
the number of levels that may still be opened: the expressions inside it have
one level less, and without a level left it fails. The last expression of a form
is on the level of the form, so that a chain of forms may have any length.
-/

namespace MlFront.Rule

open ParseM

/-- Closes open forms around a node, the innermost form first. -/
def closeAll : List OpenForm → Node → ParseM Node
  | [], node => pure node
  | form :: rest, node => do
    let node ← build (form.close node)
    closeAll rest node

theorem keeps_closeAll (forms : List OpenForm) (node : Node) : (closeAll forms node).Keeps := by
  induction forms generalizing node with
  | nil => exact keeps_pure _
  | cons form rest ih => exact (keeps_build _).bind fun node => ih node

/-- Parses open forms, adding them to `waiting`, which is innermost first, then
the node they wait for, and closes them. -/
def chain (tables : Tables) (inner last : Rule Node) (waiting : List OpenForm) (state : State) :
    Outcome Node :=
  match state.rest.head? with
  | none => .error (state.fault .unexpectedEnd) state
  | some token =>
    match tables.form token.kind with
    | none => (last.step >>= closeAll waiting).run state
    | some form =>
      match h : (form.rule inner).run state with
      | .error fault after => .error fault after
      | .ok opened after =>
        have := (form.rule inner).shortens state opened after h
        chain tables inner last (opened :: waiting) after
  termination_by state.rest.length

theorem shortens_chain (tables : Tables) (inner last : Rule Node) (waiting : List OpenForm) :
    ParseM.Shortens ⟨chain tables inner last waiting⟩ := by
  intro state
  simp only
  fun_induction chain tables inner last waiting state with
  | case1 => intro _ _ h; cases h
  | case2 waiting state token _ _ =>
    exact last.shortens.bind (fun node => keeps_closeAll waiting node) state
  | case3 => intro _ _ h; cases h
  | case4 _ _ _ _ _ _ _ _ _ h ih => exact fun value final hf => Nat.lt_trans (ih value final hf) h

/-- An expression inside the levels that `inner` leaves: open forms, and operators after them. -/
def body (tables : Tables) (inner : Rule Node) : Rule Node where
  step.run := chain tables inner (binary tables (application inner) .relational) []
  shortens := shortens_chain _ _ _ _

/-- An expression, when `levels` more expressions may be opened. -/
def expression (tables : Tables) : (levels : Nat) → Rule Node
  | 0 => nested (fail .tooNested)
  | levels + 1 => nested (body tables (expression tables levels))

end MlFront.Rule
