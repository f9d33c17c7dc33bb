import ScoredChaining.Decimal.Integer

/-!
Decimal text of floating-point numbers: `[sign] digits [. digits] [e [sign] digits]` with at least
one digit before or after the point, or one of `inf`, `infinity` and `nan` in any letter case.
The value is the nearest double, a tie going to the even one.
-/

namespace ScoredChaining.Decimal

/-- The ASCII letters of the text in lower case. -/
def lowerAscii (cs : List Char) : List Char :=
  cs.map Char.toLower

/-- The double nearest to `m * 10 ^ e`. Beyond the range of doubles in either direction no digit
matters, so the power is not computed there. -/
def nearest (m : Nat) (e : Int) : Float :=
  let magnitude := (showNat m).length + e
  if m = 0 then 0.0
  else if magnitude > 400 then 1.0 / 0.0
  else if magnitude < -400 then 0.0
  else if e < 0 then Float.ofScientific m true e.natAbs
  else Float.ofScientific m false e.natAbs

/-- The exponent at the end of a number: nothing, or `e` and an integer. -/
def readExponent? : List Char → Option Int
  | [] => some 0
  | c :: rest => if c = 'e' || c = 'E' then readInt? rest else none

/-- The number without its sign. -/
def readMagnitude? (cs : List Char) : Option Float :=
  let whole := cs.takeWhile isDigit
  let afterWhole := cs.dropWhile isDigit
  let (places, afterPlaces) :=
    match afterWhole with
    | '.' :: rest => (rest.takeWhile isDigit, rest.dropWhile isDigit)
    | rest => ([], rest)
  if whole = [] && places = [] then none
  else
    (readExponent? afterPlaces).map fun e =>
      nearest (ofDigits (whole ++ places)) (e - places.length)

/-- The double that the text denotes. -/
def readFloat? (cs : List Char) : Option Float :=
  let (negative, rest) := splitSign cs
  let word := String.ofList (lowerAscii rest)
  let magnitude :=
    if word = "inf" || word = "infinity" then some (1.0 / 0.0)
    else if word = "nan" then some (0.0 / 0.0)
    else readMagnitude? rest
  magnitude.map fun x => if negative then -x else x

end ScoredChaining.Decimal
