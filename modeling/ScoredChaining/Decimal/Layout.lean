import ScoredChaining.Decimal.Shortest

/-!
Writing doubles: how the digits chosen by `shortest` are laid out, and fixed places.

Each `Layout` is one convention. `plain` never uses an exponent and writes whole numbers without a
point; `pointed` is `plain` with `.0` after whole numbers; `scientific` is `pointed` where the
number is near one and uses an exponent elsewhere. Of two equally short and near decimals `plain`
and `pointed` write the one of larger magnitude, `scientific` the even one.
-/

namespace ScoredChaining.Decimal

/-- A convention for writing finite doubles. -/
structure Layout where
  /-- Whole numbers end in `.0`. -/
  wholePoint : Bool
  /-- The places before the point for which no exponent is written: from the first bound, which is
  not included, to the second. Without bounds there is never an exponent. -/
  positional : Option (Int × Int)
  /-- Which digits are written when two decimals are equally short and near, the sign apart. -/
  tie : Tie
  notANumber : String

/-- No exponent, no point in whole numbers. -/
def Layout.plain : Layout := ⟨false, none, .up, "NaN"⟩

/-- No exponent, and whole numbers end in `.0`. -/
def Layout.pointed : Layout := ⟨true, none, .up, "nan"⟩

/-- An exponent below `10 ^ -5` and from `10 ^ 16` on. -/
def Layout.scientific : Layout := ⟨true, some (-5, 16), .toEven, "NaN"⟩

/-- The digits in a row with the point `before` places after the first one. -/
def positionalText (wholePoint : Bool) (digits : List Char) (before : Int) : List Char :=
  if before ≤ 0 then '0' :: '.' :: List.replicate before.natAbs '0' ++ digits
  else if digits.length ≤ before then
    digits ++ List.replicate (before.natAbs - digits.length) '0' ++
      (if wholePoint then ['.', '0'] else [])
  else digits.take before.natAbs ++ '.' :: digits.drop before.natAbs

/-- One digit, the others after a point, and the power of ten. -/
def exponentText (digits : List Char) (power : Int) : List Char :=
  let mantissa :=
    match digits with
    | first :: second :: others => first :: '.' :: second :: others
    | few => few
  let sign := if power < 0 then '-' else '+'
  mantissa ++ 'e' :: sign :: showNat power.natAbs

/-- A magnitude in the layout. -/
def Layout.magnitude (layout : Layout) (d : Digits) : List Char :=
  if d.coefficient = 0 then '0' :: (if layout.wholePoint then ['.', '0'] else [])
  else
    let digits := showNat d.coefficient
    let before : Int := digits.length + d.power
    match layout.positional with
    | none => positionalText layout.wholePoint digits before
    | some (low, high) =>
      if low < before && before ≤ high then positionalText layout.wholePoint digits before
      else exponentText digits (before - 1)

/-- A double in the layout. -/
def Layout.render (layout : Layout) (x : Float) : String :=
  if x.isNaN then layout.notANumber
  else
    let sign := if isNegative x then ['-'] else []
    String.ofList (sign ++ (if x.isInf then ['i', 'n', 'f'] else layout.magnitude (shortest layout.tie x)))

/-- `n` with at least `width` digits, zeros in front. -/
def padded (width n : Nat) : List Char :=
  let digits := showNat n
  List.replicate (width - digits.length) '0' ++ digits

/-- A double with `places` digits after the point: the exact value rounded to nearest, a tie to
the even last digit. The sign of a negative number stays when it rounds to zero. -/
def fixed (places : Nat) (x : Float) : String :=
  if x.isNaN then "NaN"
  else if x.isInf then (if isNegative x then "-inf" else "inf")
  else
    let b := Binary.ofFloat x
    let (n, d) := twoPow b.exponent
    let units := roundDiv .toEven (b.significand * n * Nat.pow 10 places) d
    let sign := if b.negative then ['-'] else []
    String.ofList
      (sign ++ showNat (units / Nat.pow 10 places) ++ '.' :: padded places (units % Nat.pow 10 places))

end ScoredChaining.Decimal
