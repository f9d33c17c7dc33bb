import ScoredChaining.Engine.Commit
import ScoredChaining.Proofs.Factor
import ScoredChaining.Proofs.Pattern.Enumeration
import ScoredChaining.Proofs.Pattern.Paths
import ScoredChaining.Proofs.Rule.Walks

/-!
What holds of an engine between any two of its operations.

* `Engine.Coherent`: the parts of an engine fit each other. What is committed or pending is live,
  and every generator stands at the end of its own path.
* `Engine.Coherent.matchEdge_eq`: matching a committed fact of a coherent engine succeeds, and lists
  its legal walks.
* `Engine.Coherent.fed`: every generator that a walk reaches is given a fact for every premise.
-/

namespace ScoredChaining

variable {Custom : Type} [Decider Custom]

/-- The parts of an engine fit each other. -/
structure Engine.Coherent (e : Engine Custom) : Prop where
  graph : e.graph.WellFormed
  facts : e.facts.Indexed
  committed : ∀ id edge, e.facts.edge? id = some edge → e.graph.edges.get? id = some edge
  agenda : e.agenda.Linked
  pending : ∀ id ∈ e.agenda.pending, ∃ edge, e.graph.edges.get? id = some edge
  trie : e.trie.Sorted
  /-- A generator is one of a rule of the engine, at the end of its path. -/
  attached : ∀ path, ∀ r ∈ e.trie.generatorsAt path,
    r.rule ∈ e.rules ∧ r.path ∈ r.rule.paths ∧ r.path.keys = path
  /-- Every rule of the engine stands at the end of each of its paths. -/
  placed : ∀ rule ∈ e.rules, ∀ path ∈ rule.paths,
    ∃ scorer, ⟨rule, path, scorer⟩ ∈ e.trie.generatorsAt path.keys
  typed : ∀ rule ∈ e.rules, rule.Typed e.graph.schema

namespace Engine

/-- Effects on the graph, the agenda and the counts: the graph grows, and nothing else changes. -/
structure Frame (e e' : Engine Custom) : Prop where
  grows : Graph.Grows e.graph e'.graph
  others : e' = { e with graph := e'.graph, agenda := e'.agenda, stats := e'.stats }

namespace Frame

variable {e e' e'' : Engine Custom}

theorem refl (wf : e.graph.WellFormed) : Frame e e :=
  ⟨.refl wf, rfl⟩

theorem trans (first : Frame e e') (second : Frame e' e'') : Frame e e'' :=
  ⟨first.grows.trans second.grows, by rw [second.others, first.others]⟩

theorem facts (frame : Frame e e') : e'.facts = e.facts := by rw [frame.others]

theorem trie (frame : Frame e e') : e'.trie = e.trie := by rw [frame.others]

theorem rules (frame : Frame e e') : e'.rules = e.rules := by rw [frame.others]

theorem decisions (frame : Frame e e') : e'.decisions = e.decisions := by rw [frame.others]

theorem settings (frame : Frame e e') : e'.settings = e.settings := by rw [frame.others]

end Frame

namespace Coherent

variable {e e' : Engine Custom}

theorem withPriority (settings : Settings) (priority : Priority) :
    (Engine.withPriority settings priority : Engine Custom).Coherent where
  graph := .empty
  facts := .empty
  committed := by simp [Engine.withPriority, FactBase.edge?, FactBase.empty]
  agenda := .empty
  pending := by simp [Engine.withPriority, Agenda.pending, Agenda.toList, Agenda.empty]
  trie := Trie.sorted_empty
  attached := by simp [Engine.withPriority, Trie.generatorsAt, Actions.none]
  placed := by simp [Engine.withPriority]
  typed := by simp [Engine.withPriority]

/-- A coherent engine stays coherent when only the graph, the agenda and the counts change. -/
theorem of_frame (coherent : e.Coherent) (frame : Frame e e') (linked : e'.agenda.Linked)
    (pending : ∀ id ∈ e'.agenda.pending, ∃ edge, e'.graph.edges.get? id = some edge) :
    e'.Coherent where
  graph := frame.grows.wellFormed
  facts := frame.facts ▸ coherent.facts
  committed id edge found :=
    frame.grows.extends_.edges _ _ (coherent.committed id edge (frame.facts ▸ found))
  agenda := linked
  pending := pending
  trie := frame.trie ▸ coherent.trie
  attached := by
    rw [frame.trie, frame.rules]
    exact coherent.attached
  placed := by
    rw [frame.trie, frame.rules]
    exact coherent.placed
  typed rule mem := (coherent.typed rule (frame.rules ▸ mem)).mono frame.grows.extends_.schema

/-- A candidate that is pending stays live while the graph grows. -/
theorem live_of_pending (coherent : e.Coherent) (frame : Frame e e') {id : EdgeId}
    (pending : id ∈ e.agenda.pending) : ∃ edge, e'.graph.edges.get? id = some edge := by
  obtain ⟨edge, live⟩ := coherent.pending id pending
  exact ⟨edge, frame.grows.extends_.edges _ _ live⟩

/-! ### Walks through the committed facts -/

/-- Whatever a vertex is joined to can be entered: committed facts are live, and so are their
nodes. -/
theorem enterable (coherent : e.Coherent) : Enterable e.facts e.graph := by
  intro v w p mem
  cases v with
  | node n =>
    obtain ⟨id, edge, rfl, found, _⟩ := coherent.facts.mem_neighbors_node.mp mem
    exact ⟨_, .relation found rfl⟩
  | edge id =>
    cases found : e.facts.edge? id with
    | none => simp [FactBase.neighbors, found] at mem
    | some edge =>
      obtain ⟨n, rfl, at_⟩ := (FactBase.mem_neighbors_edge found).mp mem
      obtain ⟨_, type, v, _, _, live⟩ := RuleGenerator.live_of_nodeAt? coherent.graph
        (coherent.committed _ _ found) at_
      exact ⟨_, .type live rfl⟩

/-- Matching a committed fact succeeds, and reports its walks through the tree of patterns. -/
theorem matchEdge_eq {γ φ : Type} (coherent : e.Coherent) (t : Trie γ φ) {id : EdgeId} {edge : Edge}
    (committed : e.facts.edge? id = some edge) :
    ∃ stats, t.matchEdge e.facts e.graph id =
      .ok ((t.walks e.facts e.graph (.start (.node edge.head))).map
        fun walk => ⟨walk.2, bindingsOf walk.1⟩, stats) :=
  t.matchEdge_eq coherent.enterable committed

/-- A generator that a walk reaches is given a fact for every premise. -/
theorem fed (coherent : e.Coherent) {v : Vertex} {moves : List Move}
    {a : Actions RuleGenerator Factor}
    (listed : (moves, a) ∈ e.trie.walks e.facts e.graph (.start v)) {r : RuleGenerator}
    (mem : r ∈ a.generators) : RuleGenerator.Fed e.graph r (bindingsOf moves) := by
  obtain ⟨⟨_, run⟩, found⟩ := Trie.mem_walks_iff.mp listed
  obtain ⟨isRule, isPath, along⟩ := coherent.attached (pathOf moves) r
    (Trie.generatorsAt_of_actionsAt? found ▸ mem)
  exact (run.follows.fed coherent.committed (coherent.typed _ isRule) isPath along.symm).2

end Coherent

end Engine

end ScoredChaining
