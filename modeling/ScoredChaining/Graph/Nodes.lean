import ScoredChaining.Graph.Basic

/-!
Interned nodes. An arena keeps the nodes of one partition, numbered in the order of their
creation, with an index from types and values to the numbers; a store joins the arenas of the two
partitions.

A type and a value have at most one node: every function that creates a node looks for an existing
one first, and a node of the schema partition is preferred.
-/

namespace ScoredChaining

open Std

/-- Failures of the stores of nodes and edges. -/
inductive StoreError where
  | duplicateNode (type : TypeId) (value : Value)
  /-- A schema node was asked for, but its type and value have a temporary node. -/
  | partitionConflict (type value : String)
  | arityMismatch (relation : String) (expected actual : Nat)
  | typeMismatch (relation : String) (position : Nat) (expected actual : String)
  | unknownNode (id : NodeId)
  | unknownEdge (id : EdgeId)
  /-- The relation's number is none of the schema's. -/
  | undeclaredRelation (id : RelationId)
  deriving DecidableEq

/-- The wording of a store failure. -/
def StoreError.diagnostic : StoreError → Diagnostic
  | .duplicateNode type value =>
    .of "store" "duplicate_node"
      ("node " ++ type.text ++ "=" ++ value.text ++ " is already registered")
      ("Each (type, value) pair has exactly one node. Use `lookup` with create_if_absent instead of " ++
        "registering the node twice.")
  | .partitionConflict type value =>
    .of "store" "partition_conflict"
      ("node " ++ type ++ "=" ++ value ++
        " lives in the temporary partition and cannot become a schema node")
      ("Schema nodes and schema edges must be created before any document creates the same value as " ++
        "a temporary node. Load schema facts first.")
  | .arityMismatch relation expected actual =>
    .of "store" "arity_mismatch"
      ("relation " ++ relation ++ " takes " ++ toString expected ++ " arguments, got " ++
        toString actual)
      "The tail of an edge must have one node per relation argument."
  | .typeMismatch relation position expected actual =>
    .of "store" "type_mismatch"
      ("argument " ++ toString position ++ " of " ++ relation ++ " must have type " ++ expected ++
        ", got " ++ actual)
      "Look up the argument node with the node type the relation declares."
  | .unknownNode id =>
    .of "store" "unknown_node" ("unknown node id " ++ id.text)
      ("The id does not name a live node. Temporary ids become invalid after the temporary partition " ++
        "is cleared.")
  | .unknownEdge id =>
    .of "store" "unknown_edge" ("unknown edge id " ++ id.text)
      ("The id does not name a live edge. Temporary ids become invalid after the temporary partition " ++
        "is cleared.")
  | .undeclaredRelation id =>
    .of "store" "undeclared_relation" ("unknown relation id " ++ id.text)
      "Relation ids come from the schema that declared the relation."

instance : Explained StoreError := ⟨StoreError.diagnostic⟩

/-- The nodes of one partition. -/
structure NodeArena where
  partition : Partition
  /-- The nodes in order of creation. -/
  nodes : Array Node
  /-- The place of every node. -/
  index : ExtTreeMap Node Nat

namespace NodeArena

/-- No nodes. -/
def empty (partition : Partition) : NodeArena :=
  ⟨partition, #[], ∅⟩

/-- The number of live nodes. -/
def size (a : NodeArena) : Nat :=
  a.nodes.size

/-- The node with this type and value. -/
def find? (a : NodeArena) (type : TypeId) (value : Value) : Option NodeId :=
  a.index[Node.mk type value]?.map (NodeId.mk a.partition)

/-- The content of a node of this partition. -/
def get? (a : NodeArena) (id : NodeId) : Option Node :=
  if id.partition = a.partition then a.nodes[id.index]? else none

/-- Adds a node under the next number. -/
def add (a : NodeArena) (type : TypeId) (value : Value) : NodeId × NodeArena :=
  (⟨a.partition, a.nodes.size⟩,
    { a with
      nodes := a.nodes.push ⟨type, value⟩
      index := a.index.insert ⟨type, value⟩ a.nodes.size })

/-- The node with this type and value, created on request if there is none. -/
def lookup (a : NodeArena) (type : TypeId) (value : Value) (create : Bool) :
    Option NodeId × NodeArena :=
  match a.find? type value with
  | some id => (some id, a)
  | none =>
    if create then
      let (id, a) := a.add type value
      (some id, a)
    else (none, a)

/-- Creates a node that must not exist. -/
def register (a : NodeArena) (type : TypeId) (value : Value) :
    Except StoreError NodeId × NodeArena :=
  match a.find? type value with
  | some _ => (.error (.duplicateNode type value), a)
  | none =>
    let (id, a) := a.add type value
    (.ok id, a)

/-- The live nodes with their numbers, in order of creation. -/
def toList (a : NodeArena) : List (NodeId × Node) :=
  a.nodes.toList.zipIdx.map fun (node, i) => (⟨a.partition, i⟩, node)

/-- Drops every node. -/
def clear (a : NodeArena) : NodeArena :=
  empty a.partition

end NodeArena

/-- The nodes of both partitions. -/
structure NodeStore where
  schema : NodeArena
  temporary : NodeArena

namespace NodeStore

/-- No nodes. -/
def empty : NodeStore :=
  ⟨.empty .schema, .empty .temporary⟩

instance : Inhabited NodeStore := ⟨empty⟩

/-- The number of live nodes. -/
def size (s : NodeStore) : Nat :=
  s.schema.size + s.temporary.size

/-- The node with this type and value. -/
def find? (s : NodeStore) (type : TypeId) (value : Value) : Option NodeId :=
  (s.schema.find? type value).or (s.temporary.find? type value)

/-- The content of a node. -/
def get? (s : NodeStore) (id : NodeId) : Option Node :=
  match id.partition with
  | .schema => s.schema.get? id
  | .temporary => s.temporary.get? id

/-- The node with this type and value, created on request in the partition if there is none. An
existing schema node is always the answer. A temporary node cannot stand for a schema node, nor
turn into one, since its number may be in use. -/
def lookupIn (s : NodeStore) (type : TypeId) (value : Value) (create : Bool)
    (partition : Partition) : Except StoreError (Option NodeId) × NodeStore :=
  match s.schema.find? type value with
  | some id => (.ok (some id), s)
  | none =>
    match partition with
    | .temporary =>
      let (id?, temporary) := s.temporary.lookup type value create
      (.ok id?, { s with temporary })
    | .schema =>
      match s.temporary.find? type value with
      | some _ => (.error (.partitionConflict type.text value.text), s)
      | none =>
        let (id?, schema) := s.schema.lookup type value create
        (.ok id?, { s with schema })

/-- The node with this type and value, created on request as a temporary node. -/
def lookup (s : NodeStore) (type : TypeId) (value : Value) (create : Bool) :
    Option NodeId × NodeStore :=
  match s.schema.find? type value with
  | some id => (some id, s)
  | none =>
    let (id?, temporary) := s.temporary.lookup type value create
    (id?, { s with temporary })

/-- Drops every temporary node. -/
def clearTemporary (s : NodeStore) : NodeStore :=
  { s with temporary := s.temporary.clear }

/-- Drops every node. -/
def clear (s : NodeStore) : NodeStore :=
  ⟨s.schema.clear, s.temporary.clear⟩

end NodeStore

end ScoredChaining
