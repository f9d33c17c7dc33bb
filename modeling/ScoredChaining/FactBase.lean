import ScoredChaining.Graph.Basic

/-!
The committed facts, indexed by the nodes they touch.

A fact touches its witness and every argument, so it can be reached from each of them. Facts are
kept in the order in which they were committed; between documents the temporary ones are dropped
and the schema facts stay.
-/

namespace ScoredChaining

open Std

/-- The committed facts. -/
structure FactBase where
  /-- For every node that a fact touches, the facts with the position of the node in them. -/
  incident : ExtTreeMap NodeId (List (EdgeId × Position))
  edges : ExtTreeMap EdgeId Edge
  /-- The facts in the order in which they were committed. -/
  order : List EdgeId

namespace FactBase

/-- No facts. -/
def empty : FactBase :=
  ⟨∅, ∅, []⟩

instance : Inhabited FactBase := ⟨empty⟩

/-- The fact is committed. -/
def contains (s : FactBase) (id : EdgeId) : Bool :=
  s.edges.contains id

/-- The content of a committed fact. -/
def edge? (s : FactBase) (id : EdgeId) : Option Edge :=
  s.edges[id]?

/-- The facts that touch a node, with the position of the node in each. -/
def incidentTo (s : FactBase) (n : NodeId) : List (EdgeId × Position) :=
  (s.incident[n]?).getD []

/-- Adds a link at the end of a node's list. -/
def link (incident : ExtTreeMap NodeId (List (EdgeId × Position))) (id : EdgeId)
    (endpoint : NodeId × Position) : ExtTreeMap NodeId (List (EdgeId × Position)) :=
  incident.insert endpoint.1 ((incident[endpoint.1]?).getD [] ++ [(id, endpoint.2)])

/-- Commits a fact, unless it is committed already; the answer says which. -/
def add (s : FactBase) (id : EdgeId) (e : Edge) : Bool × FactBase :=
  if s.contains id then (false, s)
  else
    (true,
      { incident := e.endpoints.foldl (fun incident endpoint => link incident id endpoint) s.incident
        edges := s.edges.insert id e
        order := s.order ++ [id] })

/-- The vertices next to a vertex, with the position that joins them: for a node the facts that
touch it, for a fact its witness and arguments. -/
def neighbors (s : FactBase) : Vertex → List (Vertex × Position)
  | .node n => (s.incidentTo n).map fun (e, p) => (.edge e, p)
  | .edge e =>
    match s.edge? e with
    | some edge => edge.endpoints.map fun (n, p) => (.node n, p)
    | none => []

/-- The committed facts in order. -/
def toList (s : FactBase) : List (EdgeId × Edge) :=
  s.order.filterMap fun id => (s.edge? id).map fun e => (id, e)

/-- The committed facts of one relation in order. -/
def ofRelation (s : FactBase) (relation : RelationId) : List (EdgeId × Edge) :=
  s.toList.filter fun (_, e) => e.relation == relation

/-- The number of committed facts. -/
def size (s : FactBase) : Nat :=
  s.order.length

/-- The links of a node that lead to schema facts, if the node is a schema node and there are
any. -/
def schemaLinks (n : NodeId) (links : List (EdgeId × Position)) :
    Option (List (EdgeId × Position)) :=
  let kept := links.filter fun (e, _) => e.isSchema
  if n.isSchema && !kept.isEmpty then some kept else none

/-- Drops the temporary facts. -/
def clearTemporary (s : FactBase) : FactBase :=
  if s.order.all EdgeId.isSchema then s
  else
    { incident := s.incident.filterMap schemaLinks
      edges := s.edges.filter fun id _ => id.isSchema
      order := s.order.filter EdgeId.isSchema }

/-- Drops every fact. -/
def clear (_ : FactBase) : FactBase :=
  empty

end FactBase

end ScoredChaining
