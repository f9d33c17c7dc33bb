import ScoredChaining.Schema
import Std.Data.ExtTreeMap

/-!
The steps of a pattern. A pattern is a walk that alternates between facts and their arguments; a
key says what one step of it may lead to.

Keys are ordered: steps onto facts first, by relation and position, then steps onto nodes, by type
and position, then the step back (`Key.compare_eq_iff`).
-/

namespace ScoredChaining

open Std

/-- What a step of a walk leads to. -/
inductive Key where
  /-- From a node onto a fact of the relation in which the node has the position. -/
  | relation (relation : RelationId) (position : Position)
  /-- From a fact onto the node of the type at the position. -/
  | type (type : TypeId) (position : Position)
  /-- Back to the previous vertex. -/
  | parent
  deriving Repr, DecidableEq, Inhabited

/-- The place of a position in the order of positions, the witness first. -/
def Position.rank : Position → Nat
  | .head => 0
  | .tail i => i + 1

theorem Position.rank_inj {p q : Position} : p.rank = q.rank ↔ p = q := by
  cases p <;> cases q <;> simp [rank]

namespace Key

/-- The kind of a key, by its place in the order. -/
def kindRank : Key → Nat
  | .relation _ _ => 0
  | .type _ _ => 1
  | .parent => 2

/-- The number of the relation or the type of a key. -/
def subjectRank : Key → Nat
  | .relation r _ => r.index
  | .type t _ => t.index
  | .parent => 0

/-- The place of the position of a key. -/
def positionRank : Key → Nat
  | .relation _ p => p.rank
  | .type _ p => p.rank
  | .parent => 0

instance : Ord Key :=
  ⟨compareLex (compareOn kindRank) (compareLex (compareOn subjectRank) (compareOn positionRank))⟩

instance : TransOrd Key :=
  inferInstanceAs (TransCmp (compareLex (compareOn kindRank)
    (compareLex (compareOn subjectRank) (compareOn positionRank))))

theorem compare_eq_iff {j k : Key} : compare j k = .eq ↔ j = k := by
  have unfolded : compare j k = (compare j.kindRank k.kindRank).then
    ((compare j.subjectRank k.subjectRank).then (compare j.positionRank k.positionRank)) := rfl
  rw [unfolded]
  obtain ⟨⟨r⟩, p⟩ | ⟨⟨t⟩, p⟩ | _ := j <;> obtain ⟨⟨r'⟩, p'⟩ | ⟨⟨t'⟩, p'⟩ | _ := k <;>
    simp [Ordering.then_eq_eq, kindRank, subjectRank, positionRank, Position.rank_inj]

instance : LawfulEqOrd Key where
  eq_of_compare := compare_eq_iff.mp

/-- The text of a key, with the names of the relation or the type. -/
def text (s : Schema) : Key → String
  | .relation r p => "Rel(" ++ s.relationName r ++ "@" ++ p.text ++ ")"
  | .type t p => "NT(" ++ s.typeName t ++ "@" ++ p.text ++ ")"
  | .parent => "GOTO_PARENT"

end Key

end ScoredChaining
