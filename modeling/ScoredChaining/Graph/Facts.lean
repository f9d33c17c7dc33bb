import ScoredChaining.Graph.Edges

/-!
Building facts: the schema, the nodes and the edges as one graph, and the operations that make
edges over them.

`makeEdge` checks everything before it adds anything. `makeEdgeFromValues` interns the argument
nodes first, and they stay when the edge is refused.
-/

namespace ScoredChaining

/-- The schema and everything interned over it. -/
structure Graph where
  schema : Schema
  nodes : NodeStore
  edges : EdgeStore

namespace Graph

/-- Nothing declared, nothing interned. -/
def empty : Graph :=
  ⟨.empty, .empty, .empty⟩

instance : Inhabited Graph := ⟨empty⟩

/-- The content of a live node. -/
def node (g : Graph) (id : NodeId) : Except StoreError Node :=
  match g.nodes.get? id with
  | some node => .ok node
  | none => .error (.unknownNode id)

/-- The type of a live node. -/
def typeOf (g : Graph) (id : NodeId) : Except StoreError TypeId :=
  (g.node id).map Node.type

/-- The value of a live node. -/
def valueOf (g : Graph) (id : NodeId) : Except StoreError Value :=
  (g.node id).map Node.value

/-- The content of a live edge. -/
def edge (g : Graph) (id : EdgeId) : Except StoreError Edge :=
  match g.edges.get? id with
  | some edge => .ok edge
  | none => .error (.unknownEdge id)

/-- The signature of a relation of the schema. -/
def relation (g : Graph) (id : RelationId) : Except StoreError Relation :=
  match g.schema.relation? id with
  | some relation => .ok relation
  | none => .error (.undeclaredRelation id)

/-- The node with this type and value, created on request in the partition. -/
def lookupNode (g : Graph) (type : TypeId) (value : Value) (create : Bool)
    (partition : Partition) : Except StoreError (Option NodeId) × Graph :=
  let (result, nodes) := g.nodes.lookupIn type value create partition
  (result, { g with nodes })

/-- The node with this type and value, created in the partition if there is none. -/
def internNode (g : Graph) (type : TypeId) (value : Value) (partition : Partition) :
    Except StoreError NodeId × Graph :=
  match g.nodes.lookupIn type value true partition with
  | (.ok (some id), nodes) => (.ok id, { g with nodes })
  | (.ok none, nodes) =>
    (.error (.unknownNode ⟨partition, nodes.size⟩), { g with nodes })
  | (.error e, nodes) => (.error e, { g with nodes })

/-- A fact as text: the relation's name and the values in parentheses. A node that is no longer
live shows as its number. -/
def edgeText (g : Graph) (e : Edge) : String :=
  let shown := e.tail.map fun n =>
    match g.valueOf n with
    | .ok v => v.text
    | .error _ => n.text
  g.schema.relationName e.relation ++ "(" ++ ",".intercalate shown ++ ")"

/-- `edgeText` of the edge with this number, or the number if the edge is no longer live. -/
def factText (g : Graph) (id : EdgeId) : String :=
  match g.edge id with
  | .ok e => g.edgeText e
  | .error _ => id.text

/-- The values of the arguments, from argument `position` on. Each must be a live node of its
declared type, and a schema node if the edge is to be one. -/
def argumentValues (g : Graph) (relation : Relation) (partition : Partition) :
    Nat → List TypeId → List NodeId → Except StoreError (List Value)
  | position, type :: types, n :: tail => do
    let node ← g.node n
    if node.type ≠ type then
      throw (.typeMismatch relation.name position (g.schema.typeName type)
        (g.schema.typeName node.type))
    if partition = .schema && !n.isSchema then
      throw (.partitionConflict (g.schema.typeName node.type) node.value.text)
    return node.value :: (← g.argumentValues relation partition (position + 1) types tail)
  | _, _, _ => .ok []

/-- The witness of a fact, whose value is the tuple of the values of the arguments, and the fact. -/
def addEdge (g : Graph) (relation : RelationId) (witnessType : TypeId) (tail : List NodeId)
    (values : List Value) (partition : Partition) : Except StoreError EdgeId × Graph :=
  match g.internNode witnessType (.tuple values) partition with
  | (.error e, g) => (.error e, g)
  | (.ok head, g) =>
    let (id, edges) := g.edges.intern ⟨relation, head, tail⟩ partition
    (.ok id, { g with edges })

/-- The fact of `relation` with these arguments, created in the partition if there is none. A
schema fact has schema nodes only. -/
def makeEdge (g : Graph) (relation : RelationId) (tail : List NodeId) (partition : Partition) :
    Except StoreError EdgeId × Graph :=
  match g.relation relation with
  | .error e => (.error e, g)
  | .ok signature =>
    if tail.length ≠ signature.arity then
      (.error (.arityMismatch signature.name signature.arity tail.length), g)
    else
      match g.argumentValues signature partition 0 signature.argTypes tail with
      | .error e => (.error e, g)
      | .ok values =>
        match g.edges.find? relation tail with
        | some id =>
          if partition = .schema && !id.isSchema then
            (.error (.partitionConflict (g.schema.typeName signature.witnessType)
              (g.factText id)), g)
          else (.ok id, g)
        | none => g.addEdge relation signature.witnessType tail values partition

/-- The nodes with these types and values, created in the partition in order. Those created before
a failure stay. -/
def internNodes (g : Graph) (partition : Partition) :
    List TypeId → List Value → Except StoreError (List NodeId) × Graph
  | type :: types, value :: values =>
    match g.internNode type value partition with
    | (.error e, g) => (.error e, g)
    | (.ok n, g) =>
      match g.internNodes partition types values with
      | (.error e, g) => (.error e, g)
      | (.ok ns, g) => (.ok (n :: ns), g)
  | _, _ => (.ok [], g)

/-- The fact of `relation` with these values as arguments; the nodes are interned with the declared
types. -/
def makeEdgeFromValues (g : Graph) (relation : RelationId) (values : List Value)
    (partition : Partition) : Except StoreError EdgeId × Graph :=
  match g.relation relation with
  | .error e => (.error e, g)
  | .ok signature =>
    if values.length ≠ signature.arity then
      (.error (.arityMismatch signature.name signature.arity values.length), g)
    else
      match g.internNodes partition signature.argTypes values with
      | (.error e, g) => (.error e, g)
      | (.ok tail, g) => g.makeEdge relation tail partition

/-- Drops every temporary node and edge. -/
def clearTemporary (g : Graph) : Graph :=
  { g with nodes := g.nodes.clearTemporary, edges := g.edges.clearTemporary }

end Graph

end ScoredChaining
