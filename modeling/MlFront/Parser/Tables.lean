import MlFront.Parser.Power
import MlFront.Token.Kind

/-!
# Parser tables

What the parser knows of the language beside its rules: `Tables` gives the
operators with their powers and the keywords with the forms they start. The
language itself is `Tables.standard`.
-/

namespace MlFront

/-- The forms that a keyword can start. -/
inductive Form where
  | letIn
  | ifThenElse
  | function
  deriving DecidableEq, Repr

/-- The power of every kind that is an operator, and the form of every kind that
starts one. -/
structure Tables where
  power : Kind → Option Power
  form : Kind → Option Form

namespace Tables

/-- No operators and no forms. -/
def empty : Tables :=
  ⟨fun _ => none, fun _ => none⟩

/-- Makes a kind an operator of the given power. -/
def setPower (tables : Tables) (kind : Kind) (power : Power) : Tables :=
  { tables with power := fun k => if k = kind then some power else tables.power k }

/-- Makes a kind start the given form. -/
def setForm (tables : Tables) (kind : Kind) (form : Form) : Tables :=
  { tables with form := fun k => if k = kind then some form else tables.form k }

/-- The powers of the ten binary operators. -/
def standardPower : Kind → Option Power
  | .equals | .notEquals | .less | .greater | .lessEquals | .greaterEquals => some .relational
  | .plus | .dash => some .additive
  | .star | .slash => some .multiplicative
  | _ => none

/-- The forms of `let`, `if` and `fn`. -/
def standardForm : Kind → Option Form
  | .kwLet => some .letIn
  | .kwIf => some .ifThenElse
  | .kwFn => some .function
  | _ => none

/-- The tables of the language. -/
def standard : Tables :=
  ⟨standardPower, standardForm⟩

/-- Adds the tables of the language; where both have an entry, the language wins. -/
def withStandard (tables : Tables) : Tables :=
  ⟨fun kind => (standardPower kind).or (tables.power kind),
    fun kind => (standardForm kind).or (tables.form kind)⟩

/-- The operators with their powers, in the order of their kinds' names. -/
def powerList (tables : Tables) : List (Kind × Power) :=
  Kind.byName.filterMap fun kind => (tables.power kind).map (kind, ·)

/-- The kinds that start a form, in the order of their names. -/
def formList (tables : Tables) : List Kind :=
  Kind.byName.filter fun kind => (tables.form kind).isSome

theorem standardPower_isSome (kind : Kind) :
    (standardPower kind).isSome = kind.isBinaryOperator := by
  cases kind <;> rfl

theorem withStandard_empty : empty.withStandard = standard := by
  simp [withStandard, empty, standard]

end Tables

end MlFront
