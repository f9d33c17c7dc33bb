/-!
Whole numbers as decimal text: digits, and signed 64-bit integers with an optional sign.
-/

namespace ScoredChaining.Decimal

/-- An ASCII digit. -/
def isDigit (c : Char) : Bool :=
  '0' ≤ c && c ≤ '9'

/-- The number that an ASCII digit stands for. -/
def digitValue (c : Char) : Nat :=
  c.toNat - '0'.toNat

/-- The number that a run of digits stands for. -/
def ofDigits (cs : List Char) : Nat :=
  cs.foldl (fun n c => 10 * n + digitValue c) 0

/-- The number that a nonempty run of ASCII digits stands for. -/
def readNat? (cs : List Char) : Option Nat :=
  if cs ≠ [] && cs.all isDigit then some (ofDigits cs) else none

/-- A sign, `true` for minus, and the text after it. No sign counts as plus. -/
def splitSign : List Char → Bool × List Char
  | '-' :: rest => (true, rest)
  | '+' :: rest => (false, rest)
  | cs => (false, cs)

/-- An integer: an optional sign and at least one digit. -/
def readInt? (cs : List Char) : Option Int :=
  let (negative, digits) := splitSign cs
  (readNat? digits).map fun n => if negative then -(n : Int) else n

/-- A 64-bit integer: `readInt?` within the range of the type. -/
def readInt64? (cs : List Char) : Option Int64 :=
  match readInt? cs with
  | none => none
  | some n =>
    if Int64.minValue.toInt ≤ n && n ≤ Int64.maxValue.toInt then some (Int64.ofInt n) else none

/-- Decimal text of a natural number, without leading zeros. -/
def showNat (n : Nat) : List Char :=
  Nat.toDigits 10 n

/-- Decimal text of a 64-bit integer. -/
def showInt64 (n : Int64) : List Char :=
  if n.toInt < 0 then '-' :: showNat n.toInt.natAbs else showNat n.toInt.natAbs

end ScoredChaining.Decimal
