import Mathlib.Data.List.Induction
import ScoredChaining.Proofs.Graph.Facts

/-!
Sequences of graph operations, and what holds after them.

* `Graph.Operation`, `Graph.perform`: the calls that change a graph, with any arguments, whether
  they succeed or fail. `Graph.performAll` makes a sequence of them on an empty graph.
* `Graph.wellFormed_performAll`: the graph is then well-formed.
* `Graph.Consistent`, `Graph.Forgets`: what this says of facts, nodes and numbers, and of dropping
  what is temporary. `Graph.performAll_consistent`: it holds after any sequence of calls.
-/

namespace ScoredChaining.Graph

variable {g : Graph}

/-- A call that changes a graph. -/
inductive Operation where
  | internType (name : String)
  | declare (name : String) (argTypes : List TypeId)
  | declareByNames (name : String) (typeNames : List String)
  | internNode (type : TypeId) (value : Value) (partition : Partition)
  | lookupNode (type : TypeId) (value : Value) (create : Bool) (partition : Partition)
  | makeEdge (relation : RelationId) (tail : List NodeId) (partition : Partition)
  | makeEdgeFromValues (relation : RelationId) (values : List Value) (partition : Partition)
  | clearTemporary

/-- The graph after a call, which may have failed. -/
def perform (g : Graph) : Operation → Graph
  | .internType name => { g with schema := (g.schema.internType name).2 }
  | .declare name argTypes => { g with schema := (g.schema.declare name argTypes).2 }
  | .declareByNames name typeNames =>
    { g with schema := (g.schema.declareByNames name typeNames).2 }
  | .internNode type value partition => (g.internNode type value partition).2
  | .lookupNode type value create partition => (g.lookupNode type value create partition).2
  | .makeEdge relation tail partition => (g.makeEdge relation tail partition).2
  | .makeEdgeFromValues relation values partition =>
    (g.makeEdgeFromValues relation values partition).2
  | .clearTemporary => g.clearTemporary

/-- Makes the calls in order on an empty graph. -/
def performAll (operations : List Operation) : Graph :=
  operations.foldl perform empty

theorem WellFormed.perform (wf : g.WellFormed) (operation : Operation) :
    (g.perform operation).WellFormed := by
  cases operation with
  | internType name =>
    exact (wf.withSchema (wf.schema.internType name) (Schema.internType_extends _ _)).1
  | declare name argTypes =>
    exact (wf.withSchema (wf.schema.declare name argTypes) (Schema.declare_extends _ _ _)).1
  | declareByNames name typeNames =>
    exact (wf.withSchema (wf.schema.declareByNames name typeNames)
      (Schema.declareByNames_extends _ _ _)).1
  | internNode type value partition => exact (internNode_spec wf type value partition).1.wellFormed
  | lookupNode type value create partition =>
    exact (lookupNode_grows wf type value create partition).wellFormed
  | makeEdge relation tail partition =>
    exact (makeEdge_spec wf relation tail partition).1.wellFormed
  | makeEdgeFromValues relation values partition =>
    exact (makeEdgeFromValues_spec wf relation values partition).1.wellFormed
  | clearTemporary => exact wf.clearTemporary

theorem wellFormed_performAll (operations : List Operation) :
    (performAll operations).WellFormed := by
  induction operations using List.reverseRecOn with
  | nil => exact .empty
  | append_singleton operations operation ih =>
    rw [performAll, List.foldl_append]
    exact WellFormed.perform ih operation

/-! ### What well-formed graphs are like -/

/-- Facts fit their relations, facts of the schema have nodes of the schema only, nodes and facts are
told by what they stand for, and the indices find them. -/
structure Consistent (g : Graph) : Prop where
  /-- A fact has as many arguments as its relation. They are live nodes of the declared types, and
  the witness is a live node of the relation's witness type whose value is the tuple of theirs. -/
  fits : ∀ id e, g.edges.get? id = some e → ∃ (R : Relation) (values : List Value),
    g.schema.relation? e.relation = some R ∧ e.arity = R.arity ∧ values.length = R.arity ∧
    (∀ (i : Nat) (n : NodeId), e.tail[i]? = some n → ∃ type value, R.argTypes[i]? = some type ∧
      values[i]? = some value ∧ g.nodes.get? n = some ⟨type, value⟩) ∧
    g.nodes.get? e.head = some ⟨R.witnessType, .tuple values⟩
  lasting : ∀ id e, g.edges.get? id = some e → id.isSchema = true →
    ∀ n p, (n, p) ∈ e.endpoints → n.isSchema = true
  /-- A type and a value have one live node. -/
  node_unique : ∀ m n x, g.nodes.get? m = some x → g.nodes.get? n = some x → m = n
  /-- A relation and values have one live fact. -/
  edge_unique : ∀ d x e y, g.edges.get? d = some x → g.edges.get? e = some y →
    x.relation = y.relation → x.tail.map g.valueOf = y.tail.map g.valueOf → d = e
  /-- A witness has one live fact. -/
  head_unique : ∀ d x e y, g.edges.get? d = some x → g.edges.get? e = some y →
    x.head = y.head → d = e
  /-- A look-up finds the live node of the type and value. -/
  node_found : ∀ type value n, g.nodes.find? type value = some n ↔
    g.nodes.get? n = some ⟨type, value⟩
  /-- A look-up finds the live fact of the relation and arguments. -/
  edge_found : ∀ r tail id, g.edges.find? r tail = some id ↔
    ∃ head, g.edges.get? id = some ⟨r, head, tail⟩

/-- What is left of the first graph in the second is what belongs to the schema, with its
content. -/
structure Forgets (g g' : Graph) : Prop where
  schema : g'.schema = g.schema
  nodes : ∀ n, g'.nodes.get? n = if n.isSchema then g.nodes.get? n else none
  edges : ∀ id, g'.edges.get? id = if id.isSchema then g.edges.get? id else none
  /-- No fact that is left refers to a node that is gone. -/
  endpoints : ∀ id e, g'.edges.get? id = some e → ∀ n p, (n, p) ∈ e.endpoints →
    ∃ x, g'.nodes.get? n = some x

/-- The values of nodes that are live and have these values. -/
theorem map_valueOf_of_holds {types : List TypeId} {tail : List NodeId} {values : List Value}
    (holds : g.nodes.Holds types tail values) : tail.map g.valueOf = values.map .ok := by
  induction holds with
  | nil => rfl
  | cons live _ ih => rw [List.map_cons, List.map_cons, ih, valueOf_eq_ok_iff.mpr ⟨_, live⟩]

theorem WellFormed.eq_of_values (wf : g.WellFormed) {d e : EdgeId} {x y : Edge}
    (liveX : g.edges.get? d = some x) (liveY : g.edges.get? e = some y)
    (sameRelation : x.relation = y.relation)
    (sameValues : x.tail.map g.valueOf = y.tail.map g.valueOf) : d = e := by
  obtain ⟨R, values, fitsX⟩ := wf.fits liveX
  obtain ⟨R', values', fitsY⟩ := wf.fits liveY
  obtain rfl : R = R' := by
    have isR := fitsX.relation
    rw [sameRelation, fitsY.relation] at isR
    exact (Option.some.inj isR).symm
  obtain rfl : values = values' := by
    rw [map_valueOf_of_holds fitsX.holds, map_valueOf_of_holds fitsY.holds] at sameValues
    exact (List.map_inj_right fun _ _ => Except.ok.inj).mp sameValues
  exact wf.edges.unique liveX liveY sameRelation (fitsX.holds.tail_unique wf.nodes fitsY.holds)

theorem WellFormed.consistent (wf : g.WellFormed) : g.Consistent where
  fits id e live := by
    obtain ⟨R, values, fits⟩ := wf.fits live
    refine ⟨R, values, fits.relation, fits.holds.length_tail, fits.holds.length_values, ?_,
      fits.head⟩
    intro i n at_
    exact fits.holds.get at_
  lasting id e live isSchema := by
    obtain ⟨head, tail⟩ := wf.lasting live isSchema
    intro n p mem
    cases p with
    | head =>
      obtain rfl := Option.some.inj (Edge.mem_endpoints.mp mem)
      exact head
    | tail i => exact tail n (List.mem_of_getElem? (Edge.mem_endpoints.mp mem))
  node_unique _ _ _ := wf.nodes.unique
  edge_unique _ _ _ _ := wf.eq_of_values
  head_unique _ _ _ _ := wf.eq_of_head
  node_found _ _ _ := wf.nodes.find?_eq_some_iff
  edge_found r tail id := by
    rw [wf.edges.find?_eq_some_iff]
    constructor
    · rintro ⟨⟨_, head, _⟩, live, rfl, rfl⟩
      exact ⟨head, live⟩
    · rintro ⟨head, live⟩
      exact ⟨_, live, rfl, rfl⟩

/-- The nodes of a live fact are live. -/
theorem WellFormed.live_of_mem_endpoints (wf : g.WellFormed) {id : EdgeId} {e : Edge}
    (live : g.edges.get? id = some e) {n : NodeId} {p : Position} (mem : (n, p) ∈ e.endpoints) :
    ∃ x, g.nodes.get? n = some x := by
  obtain ⟨R, values, fits⟩ := wf.fits live
  cases p with
  | head =>
    obtain rfl := Option.some.inj (Edge.mem_endpoints.mp mem)
    exact ⟨_, fits.head⟩
  | tail i =>
    obtain ⟨type, value, _, _, liveN⟩ := fits.holds.get (Edge.mem_endpoints.mp mem)
    exact ⟨_, liveN⟩

theorem WellFormed.forgets (wf : g.WellFormed) : g.Forgets g.clearTemporary where
  schema := rfl
  nodes n := by
    apply Option.ext
    intro x
    refine wf.nodes.clearTemporary.2.trans ?_
    cases n.isSchema <;> simp
  edges id := by
    apply Option.ext
    intro e
    refine EdgeStore.get?_clearTemporary.trans ?_
    cases id.isSchema <;> simp
  endpoints id e live n p mem := wf.clearTemporary.live_of_mem_endpoints live mem

/-- After any sequence of calls, of which some may have failed, facts, nodes and numbers are
consistent, and dropping what is temporary leaves all that belongs to the schema as it is and refers
to nothing that is gone. -/
theorem performAll_consistent (operations : List Operation) :
    (performAll operations).Consistent ∧
      (performAll operations).Forgets (performAll operations).clearTemporary := by
  have wf := wellFormed_performAll operations
  exact ⟨wf.consistent, wf.forgets⟩

/-- Of two links the one of the schema is left, under its number. -/
example : (performAll [.declareByNames "link" ["point", "point"],
    .makeEdgeFromValues ⟨0⟩ [.int 1, .int 2] .schema,
    .makeEdgeFromValues ⟨0⟩ [.int 2, .int 3] .temporary, .clearTemporary]).edges.index.toList =
      [(⟨⟨0⟩, [⟨.schema, 0⟩, ⟨.schema, 1⟩]⟩, ⟨.schema, 0⟩)] := by
  decide +kernel

end ScoredChaining.Graph
