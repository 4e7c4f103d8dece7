/-!
# Binding powers

An operator binds its operands with one of four powers, from `relational`, the
loosest, to `primary`, the tightest. Powers are ordered by tightness.
-/

namespace MlFront

/-- How tightly an operator binds, loosest first. -/
inductive Power where
  | relational
  | additive
  | multiplicative
  | primary
  deriving DecidableEq, Repr

namespace Power

/-- Every power once, loosest first. -/
def all : List Power :=
  [relational, additive, multiplicative, primary]

/-- The name of a power. -/
def name : Power → String
  | relational => "Relational"
  | additive => "Additive"
  | multiplicative => "Multiplicative"
  | primary => "Primary"

/-- The power with the given name. -/
def ofName? (text : String) : Option Power :=
  all.find? (·.name == text)

/-- The number of powers looser than this one. -/
def rank : Power → Nat
  | relational => 0
  | additive => 1
  | multiplicative => 2
  | primary => 3

instance : LT Power := ⟨fun a b => a.rank < b.rank⟩

instance (a b : Power) : Decidable (a < b) := inferInstanceAs (Decidable (a.rank < b.rank))

/-- The next tighter power; `primary` has none and stays. It is the least power
of a right operand, so that operators of one power group to the left. -/
def tighter : Power → Power
  | relational => additive
  | additive => multiplicative
  | multiplicative => primary
  | primary => primary

theorem lt_iff {a b : Power} : a < b ↔ a.rank < b.rank := Iff.rfl

theorem rank_tighter (power : Power) : power.tighter.rank = min (power.rank + 1) 3 := by
  cases power <;> rfl

theorem rank_le (power : Power) : power.rank ≤ 3 := by
  cases power <;> decide

theorem not_tighter_lt (power : Power) : ¬ power.tighter < power := by
  cases power <;> decide

end Power

end MlFront
