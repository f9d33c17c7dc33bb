import ScoredChaining.Distinct
import ScoredChaining.Gold.Tally
import ScoredChaining.Graph.Basic

/-!
Gold facts: the facts of a document that ought to be derived.

Only for relations that have gold facts is it known that other facts are wrong, so the number of
gold facts is kept for each relation.
-/

namespace ScoredChaining

open Std

/-- What the gold facts say about a fact. -/
inductive Label where
  | gold
  /-- Its relation has gold facts, but this is none of them. -/
  | notGold
  /-- Its relation has no gold facts. -/
  | unknown
  deriving Repr, DecidableEq, Inhabited

/-- The name of a label. -/
def Label.name : Label → String
  | .gold => "Gold"
  | .notGold => "NotGold"
  | .unknown => "Unknown"

/-- The gold facts, each once, and how many of them each relation has. -/
structure Labels where
  gold : List Edge
  perRelation : ExtTreeMap RelationId Nat

namespace Labels

/-- No gold facts. -/
def empty : Labels :=
  ⟨[], ∅⟩

instance : Inhabited Labels := ⟨empty⟩

/-- The fact is gold. -/
def contains (l : Labels) (e : Edge) : Bool :=
  l.gold.contains e

/-- The number of gold facts of a relation. -/
def count (l : Labels) (r : RelationId) : Nat :=
  (l.perRelation[r]?).getD 0

/-- Adds a gold fact; the answer says whether it is new. -/
def add (l : Labels) (e : Edge) : Bool × Labels :=
  if l.contains e then (false, l)
  else (true, ⟨e :: l.gold, l.perRelation.insert e.relation (l.count e.relation + 1)⟩)

/-- What the gold facts say about a fact. -/
def label (l : Labels) (e : Edge) : Label :=
  if l.contains e then .gold
  else if l.perRelation.contains e.relation then .notGold
  else .unknown

/-- The number of gold facts. -/
def size (l : Labels) : Nat :=
  l.gold.length

/-- There are no gold facts. -/
def isEmpty (l : Labels) : Bool :=
  l.gold.isEmpty

/-- The relations with gold facts, in ascending order. -/
def relations (l : Labels) : List RelationId :=
  l.perRelation.keys

/-- The counts for these predictions, of one relation if one is given. A gold fact that is
predicted more than once counts once, any other prediction as often as it is made. -/
def tally (l : Labels) (predicted : List Edge) (relation : Option RelationId) : Tally :=
  let wanted (e : Edge) : Bool := relation.all (· == e.relation)
  let considered := predicted.filter wanted
  let found := (distinct (considered.filter l.contains)).length
  { truePositives := found
    falsePositives := (considered.filter fun e => !l.contains e).length
    falseNegatives := (l.gold.filter wanted).length - found }

/-- Forgets the gold facts. -/
def clear (_ : Labels) : Labels :=
  empty

end Labels

end ScoredChaining
