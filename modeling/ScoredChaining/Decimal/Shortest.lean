import ScoredChaining.Decimal.Binary
import ScoredChaining.Decimal.Integer
import ScoredChaining.Decimal.Rounding

/-!
The fewest decimal digits that read back as the same double.

The reals that round to a double form an interval around it. `shortest` takes the coarsest decimal
grid that has a point in the interval and, of the points of that grid in it, the one nearest to
the double. A grid that has a point in the interval has one among the two neighbours of the double
on that grid, so only these are tried. Where both are in the interval and equally near, the format
that is written decides between them.
-/

namespace ScoredChaining.Decimal

/-- The digits of `coefficient` followed by the power: `coefficient * 10 ^ power`. -/
structure Digits where
  coefficient : Nat
  power : Int
  deriving Repr, DecidableEq

/-- The fraction `numerator / denominator`, compared with others by cross-multiplication. -/
structure Ratio where
  numerator : Nat
  denominator : Nat

/-- The first fraction is below the second. -/
def Ratio.lt (a b : Ratio) : Bool :=
  a.numerator * b.denominator < b.numerator * a.denominator

/-- The whole part. -/
def Ratio.floor (a : Ratio) : Nat :=
  a.numerator / a.denominator

/-- `k` quarters of the unit in the last place of `b`, as a multiple of `10 ^ power`. -/
def Binary.scaled (b : Binary) (quarters : Nat) (power : Int) : Ratio :=
  let (n, d) := twoPow (b.exponent - 2)
  let (tenN, tenD) := tenPow power
  ⟨quarters * n * tenD, d * tenN⟩

/-- The point `c` of the grid of multiples of `10 ^ power` rounds to `b`. The ends of the interval
belong to it when the significand is even. -/
def Binary.roundsFrom (b : Binary) (c : Nat) (power : Int) : Bool :=
  let point : Ratio := ⟨c, 1⟩
  let low := b.scaled (4 * b.significand - (if b.narrowBelow then 1 else 2)) power
  let high := b.scaled (4 * b.significand + 2) power
  if b.significand % 2 = 0 then !point.lt low && !high.lt point
  else low.lt point && point.lt high

/-- The grid point for `b` on the multiples of `10 ^ power`: of two neighbours that round to `b`
the nearer, and the one that `tie` takes if they are equally near. -/
def Binary.onGrid? (b : Binary) (tie : Tie) (power : Int) : Option Nat :=
  let value := b.scaled (4 * b.significand) power
  let below := value.floor
  match b.roundsFrom below power, b.roundsFrom (below + 1) power with
  | false, false => none
  | true, false => some below
  | false, true => some (below + 1)
  | true, true => some (roundDiv tie value.numerator value.denominator)

/-- The power of ten of the leading digit of a positive number, searched downwards from `10 ^ 309`
with `fuel` steps. -/
def Binary.leadingPower (b : Binary) : Nat → Int → Int
  | 0, e => e
  | fuel + 1, e => if (b.scaled (4 * b.significand) e).floor = 0 then b.leadingPower fuel (e - 1) else e

/-- The fewest digits that read back as the magnitude of a finite double. The first grid tried is
one coarser than the leading digit, for a number just below a power of ten; seventeen digits are
always enough. -/
def Binary.shortest (b : Binary) (tie : Tie) : Digits :=
  if b.significand = 0 then ⟨0, 0⟩
  else
    let bits : Int := b.exponent + b.significand.log2
    let top := b.leadingPower 700 (bits * 30103 / 100000 + 2)
    let found := (List.range 18).findSome? fun (k : Nat) =>
      (b.onGrid? tie (top + 1 - k)).map fun c => Digits.mk c (top + 1 - k)
    found.getD ⟨(b.scaled (4 * b.significand) (top - 16)).floor, top - 16⟩

/-- The shortest digits of a finite double, sign apart. -/
def shortest (tie : Tie) (x : Float) : Digits :=
  (Binary.ofFloat x).shortest tie

end ScoredChaining.Decimal
