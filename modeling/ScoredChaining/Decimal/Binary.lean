/-!
The exact value of a double: a sign and a magnitude `m * 2 ^ q`.
-/

namespace ScoredChaining.Decimal

/-- The exact value of a finite double. -/
structure Binary where
  negative : Bool
  significand : Nat
  exponent : Int
  /-- The gap to the next smaller double is half the gap to the next larger one. -/
  narrowBelow : Bool

/-- The sign bit is set. -/
def isNegative (x : Float) : Bool :=
  x.toBits ≥ 0x8000000000000000

/-- The fields of a finite double: with a zero exponent field the number is subnormal. -/
def Binary.ofFloat (x : Float) : Binary :=
  let bits := x.toBits.toNat
  let field := bits / Nat.pow 2 52 % Nat.pow 2 11
  let fraction := bits % Nat.pow 2 52
  if field = 0 then ⟨isNegative x, fraction, -1074, false⟩
  else ⟨isNegative x, Nat.pow 2 52 + fraction, Int.ofNat field - 1075, fraction = 0 && field > 1⟩

/-- The power of two as a fraction: numerator and denominator. -/
def twoPow (e : Int) : Nat × Nat :=
  if e < 0 then (1, Nat.pow 2 e.natAbs) else (Nat.pow 2 e.natAbs, 1)

/-- The power of ten as a fraction: numerator and denominator. -/
def tenPow (e : Int) : Nat × Nat :=
  if e < 0 then (1, Nat.pow 10 e.natAbs) else (Nat.pow 10 e.natAbs, 1)

end ScoredChaining.Decimal
