/-!
# Elapsed times

A time is written in the largest of the units `s`, `ms`, `µs` and `ns` that it
reaches, with all the decimals it has and no trailing zeros: `1.5ms`, `20µs`.
-/

namespace MlFront

/-- `part` out of `unit`, a power of ten, as decimals after a point; nothing when `part` is 0. -/
def decimals (part unit : Nat) : String :=
  let digits := (toString (unit + part)).toList.tail
  match (digits.reverse.dropWhile (· == '0')).reverse with
  | [] => ""
  | kept => "." ++ String.ofList kept

/-- An amount of nanoseconds in a unit of `unit` nanoseconds. -/
def inUnit (nanoseconds unit : Nat) (name : String) : String :=
  toString (nanoseconds / unit) ++ decimals (nanoseconds % unit) unit ++ name

/-- The text of a time. -/
def elapsedText (nanoseconds : Nat) : String :=
  if 1000000000 ≤ nanoseconds then inUnit nanoseconds 1000000000 "s"
  else if 1000000 ≤ nanoseconds then inUnit nanoseconds 1000000 "ms"
  else if 1000 ≤ nanoseconds then inUnit nanoseconds 1000 "µs"
  else inUnit nanoseconds 1 "ns"

end MlFront
