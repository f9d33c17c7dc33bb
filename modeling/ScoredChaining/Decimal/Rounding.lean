/-!
Rounding a quotient to the nearest whole number.

Two whole numbers are equally near to a quotient that lies in the middle between them. Which of
the two is taken is the choice of a `Tie`.
-/

namespace ScoredChaining.Decimal

/-- Which of two equally near neighbours is taken. -/
inductive Tie where
  | toEven
  | up
  deriving Repr, DecidableEq

/-- The neighbour taken in the middle between `below` and `below + 1`. -/
def Tie.choose (tie : Tie) (below : Nat) : Nat :=
  match tie with
  | .toEven => below + below % 2
  | .up => below + 1

/-- The quotient rounded to the nearest whole number. -/
def roundDiv (tie : Tie) (numerator denominator : Nat) : Nat :=
  let below := numerator / denominator
  let rest := 2 * (numerator % denominator)
  if rest < denominator then below
  else if denominator < rest then below + 1
  else tie.choose below

end ScoredChaining.Decimal
