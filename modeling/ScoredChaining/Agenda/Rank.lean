/-!
The total order of doubles by which the agenda sorts. It agrees with the numerical order and puts
minus zero below zero. A not-a-number is above infinity, or below minus infinity if its sign bit is
set.

There is one `Float` that is not a number, and it has no sign. Priorities are therefore kept by
their bits.
-/

namespace ScoredChaining

/-- A double, by its bits. -/
structure Double where
  bits : UInt64
  deriving Repr, DecidableEq, Inhabited

namespace Double

/-- The double with this number. A not-a-number has no sign bit here; which sign arithmetic gives to
one is not specified. -/
def ofFloat (x : Float) : Double :=
  ⟨x.toBits⟩

/-- The number. -/
def toFloat (x : Double) : Float :=
  .ofBits x.bits

end Double

/-- The place of a double in the total order. A double with the sign bit set comes below all
others, and the further its magnitude the lower. -/
def totalRank (x : Double) : Int :=
  let bits := x.bits.toNat
  if bits < 0x8000000000000000 then Int.ofNat bits else 0x7fffffffffffffff - Int.ofNat bits

/-- `x` comes above `y` in the total order. -/
def ranksAbove (x y : Double) : Bool :=
  totalRank y < totalRank x

theorem ranksAbove_iff {x y : Double} : ranksAbove x y = true ↔ totalRank y < totalRank x := by
  simp [ranksAbove]

end ScoredChaining
