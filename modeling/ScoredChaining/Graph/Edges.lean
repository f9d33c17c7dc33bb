import ScoredChaining.Graph.Nodes

/-!
Interned edges: one per relation and arguments. The witness of a fact is a function of its
arguments, so they identify it.
-/

namespace ScoredChaining

open Std

/-- What identifies a fact: its relation and arguments. -/
structure EdgeKey where
  relation : RelationId
  tail : List NodeId
  deriving DecidableEq

namespace EdgeKey

instance : Ord EdgeKey :=
  ⟨compareLex (compareOn EdgeKey.relation) (compareOn EdgeKey.tail)⟩

instance : TransOrd EdgeKey :=
  inferInstanceAs (TransCmp (compareLex (compareOn EdgeKey.relation) (compareOn EdgeKey.tail)))

theorem compare_eq_iff {j k : EdgeKey} : compare j k = .eq ↔ j = k := by
  obtain ⟨q, ns⟩ := j
  obtain ⟨r, ms⟩ := k
  have unfolded : compare (EdgeKey.mk q ns) (EdgeKey.mk r ms) =
    (compare q r).then (compare ns ms) := rfl
  simp [unfolded, Ordering.then_eq_eq]

instance : LawfulEqOrd EdgeKey where
  eq_of_compare := compare_eq_iff.mp

end EdgeKey

/-- What identifies the fact. -/
def Edge.key (e : Edge) : EdgeKey :=
  ⟨e.relation, e.tail⟩

/-- The edges of both partitions, each in order of creation, with an index from what identifies them
to their numbers. -/
structure EdgeStore where
  schema : Array Edge
  temporary : Array Edge
  index : ExtTreeMap EdgeKey EdgeId

namespace EdgeStore

/-- No edges. -/
def empty : EdgeStore :=
  ⟨#[], #[], ∅⟩

instance : Inhabited EdgeStore := ⟨empty⟩

/-- The edges of one partition. -/
def arena (s : EdgeStore) : Partition → Array Edge
  | .schema => s.schema
  | .temporary => s.temporary

/-- The edge with this relation and these arguments. -/
def find? (s : EdgeStore) (relation : RelationId) (tail : List NodeId) : Option EdgeId :=
  s.index[EdgeKey.mk relation tail]?

/-- The content of an edge. -/
def get? (s : EdgeStore) (id : EdgeId) : Option Edge :=
  (s.arena id.partition)[id.index]?

/-- The edge with the relation and the arguments of `e`, which is added to the partition if there
is none. -/
def intern (s : EdgeStore) (e : Edge) (partition : Partition) : EdgeId × EdgeStore :=
  match s.find? e.relation e.tail with
  | some id => (id, s)
  | none =>
    let id : EdgeId := ⟨partition, (s.arena partition).size⟩
    let index := s.index.insert e.key id
    (id,
      match partition with
      | .schema => { s with schema := s.schema.push e, index }
      | .temporary => { s with temporary := s.temporary.push e, index })

/-- The number of edges. -/
def size (s : EdgeStore) : Nat :=
  s.schema.size + s.temporary.size

/-- Drops every temporary edge. -/
def clearTemporary (s : EdgeStore) : EdgeStore :=
  { s with temporary := #[], index := s.index.filter fun _ id => id.isSchema }

end EdgeStore

end ScoredChaining
