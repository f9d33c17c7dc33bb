import ScoredChaining.Decimal.Layout

/-!
Counting how well predictions agree with the gold facts: precision, recall and their harmonic mean.
-/

namespace ScoredChaining

/-- Counts of predicted gold facts, other predictions, and gold facts that were not predicted. -/
structure Tally where
  truePositives : Nat
  falsePositives : Nat
  falseNegatives : Nat
  deriving Repr, DecidableEq, Inhabited

namespace Tally

/-- Nothing predicted and nothing gold. -/
def zero : Tally :=
  ⟨0, 0, 0⟩

/-- A quotient, which is one if there is nothing to divide by. -/
def ratio (part whole : Nat) : Float :=
  if whole = 0 then 1.0 else Float.ofNat part / Float.ofNat whole

/-- The share of gold facts among the predictions. -/
def precision (t : Tally) : Float :=
  ratio t.truePositives (t.truePositives + t.falsePositives)

/-- The share of predictions among the gold facts. -/
def recallRate (t : Tally) : Float :=
  ratio t.truePositives (t.truePositives + t.falseNegatives)

/-- The harmonic mean of precision and recall, or zero if both are zero. -/
def f1 (t : Tally) : Float :=
  let p := t.precision
  let r := t.recallRate
  if p + r == 0.0 then 0.0 else 2.0 * p * r / (p + r)

/-- The counts of two tallies together. -/
def merge (s t : Tally) : Tally :=
  ⟨s.truePositives + t.truePositives, s.falsePositives + t.falsePositives,
    s.falseNegatives + t.falseNegatives⟩

/-- The counts and the three measures, these with three places. -/
def text (t : Tally) : String :=
  "tp=" ++ toString t.truePositives ++ " fp=" ++ toString t.falsePositives ++ " fn=" ++
    toString t.falseNegatives ++ " P=" ++ Decimal.fixed 3 t.precision ++ " R=" ++
    Decimal.fixed 3 t.recallRate ++ " F1=" ++ Decimal.fixed 3 t.f1

end Tally

end ScoredChaining
