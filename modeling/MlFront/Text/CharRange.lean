/-!
# Ranges of characters

A class of characters that a standard gives as a table is a list of
`CharRange`s; `CharRange.cover` tests a character against the list.
-/

namespace MlFront

/-- The characters whose code points lie between `first` and `last`, both included. -/
structure CharRange where
  first : Nat
  last : Nat
  deriving DecidableEq, Repr

namespace CharRange

/-- Whether the range holds the character. -/
def contains (range : CharRange) (c : Char) : Bool :=
  range.first ≤ c.toNat && c.toNat ≤ range.last

/-- Whether one of the ranges holds the character. -/
def cover (ranges : List CharRange) (c : Char) : Bool :=
  ranges.any (·.contains c)

theorem contains_iff {range : CharRange} {c : Char} :
    range.contains c = true ↔ range.first ≤ c.toNat ∧ c.toNat ≤ range.last := by
  simp [contains]

theorem cover_iff {ranges : List CharRange} {c : Char} :
    cover ranges c = true ↔ ∃ range ∈ ranges, range.first ≤ c.toNat ∧ c.toNat ≤ range.last := by
  simp [cover, contains_iff]

end CharRange

end MlFront
