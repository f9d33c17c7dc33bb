import ScoredChaining.Schema
import ScoredChaining.Value
import Std.Data.ExtTreeMap

/-!
The hypergraph: typed nodes, and facts as edges over them.

Nodes and edges are values; they are referred to by numbers that are unique within one of two
partitions. What is in the schema partition lives for the whole run, what is in the temporary
partition only until the end of the document. The numbers are ordered by partition and index, the
schema partition first (`NodeId.compare_eq_iff`, `EdgeId.compare_eq_iff`).
-/

namespace ScoredChaining

open Std

/-- How long a node or a fact lives. -/
inductive Partition where
  /-- For the whole run. -/
  | schema
  /-- Until the end of the document. -/
  | temporary
  deriving Repr, DecidableEq, Inhabited

namespace Partition

/-- The place of the partition in the order of numbers. -/
def rank : Partition → Nat
  | .schema => 0
  | .temporary => 1

theorem rank_inj {p q : Partition} : p.rank = q.rank ↔ p = q := by
  cases p <;> cases q <;> simp [rank]

/-- The letter that numbers of this partition are shown with. -/
def letter : Partition → String
  | .schema => "s"
  | .temporary => "t"

/-- The partition's name. -/
def name : Partition → String
  | .schema => "Schema"
  | .temporary => "Temporary"

end Partition

/-- The number of a node. The index has no bound; an index that is kept in 32 bits is the same one as
long as no partition has more than 2 ^ 32 nodes. -/
structure NodeId where
  partition : Partition
  index : Nat
  deriving Repr, DecidableEq, Inhabited

/-- The number of an edge. The index has no bound; an index that is kept in 32 bits is the same one as
long as no partition has more than 2 ^ 32 edges. -/
structure EdgeId where
  partition : Partition
  index : Nat
  deriving Repr, DecidableEq, Inhabited

namespace NodeId

/-- The node lives for the whole run. -/
def isSchema (n : NodeId) : Bool :=
  n.partition = .schema

/-- The text of a node's number. -/
def text (n : NodeId) : String :=
  "n:" ++ n.partition.letter ++ toString n.index

instance : Ord NodeId :=
  ⟨compareLex (compareOn fun n => n.partition.rank) (compareOn fun n => n.index)⟩

instance : TransOrd NodeId :=
  inferInstanceAs (TransCmp (compareLex (compareOn fun n : NodeId => n.partition.rank)
    (compareOn fun n : NodeId => n.index)))

theorem compare_eq_iff {m n : NodeId} : compare m n = .eq ↔ m = n := by
  obtain ⟨p, i⟩ := m
  obtain ⟨q, j⟩ := n
  have unfolded : compare (NodeId.mk p i) (NodeId.mk q j) =
    (compare p.rank q.rank).then (compare i j) := rfl
  simp [unfolded, Ordering.then_eq_eq, Partition.rank_inj]

instance : LawfulEqOrd NodeId where
  eq_of_compare := compare_eq_iff.mp

end NodeId

namespace EdgeId

/-- The edge lives for the whole run. -/
def isSchema (e : EdgeId) : Bool :=
  e.partition = .schema

/-- The text of an edge's number. -/
def text (e : EdgeId) : String :=
  "e:" ++ e.partition.letter ++ toString e.index

instance : Ord EdgeId :=
  ⟨compareLex (compareOn fun e => e.partition.rank) (compareOn fun e => e.index)⟩

instance : TransOrd EdgeId :=
  inferInstanceAs (TransCmp (compareLex (compareOn fun e : EdgeId => e.partition.rank)
    (compareOn fun e : EdgeId => e.index)))

theorem compare_eq_iff {d e : EdgeId} : compare d e = .eq ↔ d = e := by
  obtain ⟨p, i⟩ := d
  obtain ⟨q, j⟩ := e
  have unfolded : compare (EdgeId.mk p i) (EdgeId.mk q j) =
    (compare p.rank q.rank).then (compare i j) := rfl
  simp [unfolded, Ordering.then_eq_eq, Partition.rank_inj]

instance : LawfulEqOrd EdgeId where
  eq_of_compare := compare_eq_iff.mp

end EdgeId

/-- A typed value. -/
structure Node where
  type : TypeId
  value : Value
  deriving DecidableEq, Inhabited

namespace Node

instance : Ord Node :=
  ⟨compareLex (compareOn fun x => x.type.index) (compareOn fun x => x.value)⟩

instance : TransOrd Node :=
  inferInstanceAs (TransCmp (compareLex (compareOn fun x : Node => x.type.index)
    (compareOn fun x : Node => x.value)))

theorem compare_eq_iff {x y : Node} : compare x y = .eq ↔ x = y := by
  obtain ⟨⟨i⟩, v⟩ := x
  obtain ⟨⟨j⟩, w⟩ := y
  have unfolded : compare (Node.mk ⟨i⟩ v) (Node.mk ⟨j⟩ w) = (compare i j).then (compare v w) := rfl
  simp [unfolded, Ordering.then_eq_eq]

instance : LawfulEqOrd Node where
  eq_of_compare := compare_eq_iff.mp

end Node

/-- A fact: a relation applied to nodes, with a witness node that stands for the fact itself. -/
structure Edge where
  relation : RelationId
  head : NodeId
  tail : List NodeId
  deriving Repr, DecidableEq, Inhabited

namespace Edge

/-- The number of arguments. -/
def arity (e : Edge) : Nat :=
  e.tail.length

/-- The node at a position, if there is such a position. -/
def nodeAt? (e : Edge) : Position → Option NodeId
  | .head => some e.head
  | .tail i => e.tail[i]?

/-- The arguments with their positions, the first of them at `i`. -/
def placedFrom (i : Nat) : List NodeId → List (NodeId × Position)
  | [] => []
  | n :: rest => (n, .tail i) :: placedFrom (i + 1) rest

/-- The witness and the arguments, each with its position. -/
def endpoints (e : Edge) : List (NodeId × Position) :=
  (e.head, .head) :: placedFrom 0 e.tail

theorem mem_placedFrom {n : NodeId} {p : Position} {i : Nat} {ns : List NodeId} :
    (n, p) ∈ placedFrom i ns ↔ ∃ k, ns[k]? = some n ∧ p = .tail (i + k) := by
  induction ns generalizing i with
  | nil => simp [placedFrom]
  | cons m rest ih =>
    simp only [placedFrom, List.mem_cons, Prod.mk.injEq, ih]
    constructor
    · rintro (⟨rfl, rfl⟩ | ⟨k, found, rfl⟩)
      · exact ⟨0, by simp⟩
      · exact ⟨k + 1, by simpa using found, by congr 1; omega⟩
    · rintro ⟨k, found, rfl⟩
      cases k with
      | zero => exact .inl (by simpa [eq_comm] using found)
      | succ k => exact .inr ⟨k, by simpa using found, by congr 1; omega⟩

/-- The endpoints are the nodes at the positions. -/
theorem mem_endpoints {e : Edge} {n : NodeId} {p : Position} :
    (n, p) ∈ e.endpoints ↔ e.nodeAt? p = some n := by
  simp only [endpoints, List.mem_cons, Prod.mk.injEq, mem_placedFrom]
  cases p with
  | head => simp [nodeAt?, eq_comm]
  | tail i => simp [nodeAt?]

end Edge

/-- A vertex of the graph that pattern matching walks: a node or a fact. -/
inductive Vertex where
  | node (n : NodeId)
  | edge (e : EdgeId)
  deriving Repr, DecidableEq, Inhabited

namespace Vertex

/-- The fact, if the vertex is one. -/
def edge? : Vertex → Option EdgeId
  | .edge e => some e
  | .node _ => none

/-- The text of the vertex's number. -/
def text : Vertex → String
  | .node n => n.text
  | .edge e => e.text

end Vertex

end ScoredChaining
