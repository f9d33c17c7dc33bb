import ScoredChaining.Proofs.Rule.Crossings
import ScoredChaining.Proofs.Rule.Instances

/-!
The walk that the facts and nodes of an instance of a rule make possible.

The tour of the join graph is replayed through the committed facts: where it enters a premise the
walk steps onto the fact for it, where it enters a variable onto the node for it.

* `CompiledRule.replay`: the walk from one premise.
* `CompiledRule.Filled.nodup_linksOf_replay`: it crosses no link twice just if the facts open the
  path.
* `CompiledRule.Filled.exists_walk`, `CompiledRule.Filled.opens_of_walk`: there is a legal walk along
  the path that binds the facts just if they open it.
-/

namespace ScoredChaining

/-- The move along a key from one vertex to another. -/
def Key.move (source target : Vertex) : Key → Move
  | .relation r p => .cross (.relation r p) ⟨source, target, p⟩
  | .type t p => .cross (.type t p) ⟨source, target, p⟩
  | .parent => .back

@[simp] theorem Key.key_move (source target : Vertex) (key : Key) :
    (key.move source target).key = key := by
  cases key <;> rfl

/-- The link that a crossing of a fact becomes among these facts. -/
def Crossing.link (facts : FactBase) (c : Crossing EdgeId) : Link :=
  let n := ((facts.edge? c.fact).bind (·.nodeAt? c.position)).getD default
  if c.inward then ⟨.node n, .edge c.fact, c.position⟩ else ⟨.edge c.fact, .node n, c.position⟩

theorem Crossing.link_injective (facts : FactBase) : Function.Injective (Crossing.link facts) := by
  rintro ⟨inward, id, p⟩ ⟨inward', id', p'⟩ same
  cases inward <;> cases inward' <;> simp [link] at same ⊢
  · exact ⟨same.1, same.2.2⟩
  · exact same.2

namespace JoinGraph

/-- Where a premise or a shared variable lies. -/
def spot (j : JoinGraph) (α : Nat → EdgeId) (σ : Valuation) : JoinVertex → Vertex
  | .premise i => .edge (α i)
  | .join k => .node (σ (j.joins.getD k ""))

/-- The move that replays a step of the tour from the premise `root`. -/
def replayStep (j : JoinGraph) (relations : List RelationId) (types : VariableTypes) (root : Nat)
    (α : Nat → EdgeId) (σ : Valuation) : TourStep → Option Move
  | .enter v w =>
    (Rule.stepKey? j relations types root (.enter v w)).map
      (Key.move (j.spot α σ v) (j.spot α σ w))
  | .leave v => if v = .premise root then none else some .back

/-- The facts and nodes are joined as the premises and shared variables are: wherever a variable is
placed, the fact has its node, and both are of the right kind. -/
def Placed (facts : FactBase) (g : Graph) (j : JoinGraph) (relations : List RelationId)
    (types : VariableTypes) (α : Nat → EdgeId) (σ : Valuation) : Prop :=
  ∀ i k p, j.placement? i k = some p → ∃ name type value edge, j.joins[k]? = some name ∧
    types.lookup name = some type ∧ g.nodes.get? (σ name) = some ⟨type, value⟩ ∧
    facts.edge? (α i) = some edge ∧ relations[i]? = some edge.relation ∧
    edge.nodeAt? p = some (σ name)

variable {j : JoinGraph} {relations : List RelationId} {types : VariableTypes} {root : Nat}
  {α : Nat → EdgeId} {σ : Valuation} {facts : FactBase} {g : Graph}

theorem pathOf_replay (steps : List TourStep) :
    pathOf (steps.filterMap (j.replayStep relations types root α σ)) =
      steps.filterMap (Rule.stepKey? j relations types root) := by
  rw [pathOf, List.map_filterMap]
  apply List.filterMap_congr
  intro step _
  cases step with
  | enter v w =>
    cases same : Rule.stepKey? j relations types root (.enter v w) <;> simp [replayStep, same]
  | leave v =>
    simp only [replayStep, Rule.stepKey?]
    split <;> rfl

theorem spot_join {k : Nat} {name : String} (isJoin : j.joins[k]? = some name) :
    j.spot α σ (.join k) = .node (σ name) := by
  rw [spot, List.getD_eq_getElem?_getD, isJoin, Option.getD_some]

variable (root) in
/-- From a vertex one can step to where its neighbours lie. -/
theorem Placed.step (indexed : facts.Indexed) (placed : Placed facts g j relations types α σ)
    {v w : JoinVertex} (neighbor : w ∈ j.neighbors v) :
    ∃ key p, j.replayStep relations types root α σ (.enter v w) =
        some (.cross key ⟨j.spot α σ v, j.spot α σ w, p⟩) ∧
      (j.spot α σ w, p) ∈ facts.neighbors (j.spot α σ v) ∧ Enters facts g key (j.spot α σ w) p := by
  cases v with
  | premise i =>
    obtain ⟨k, p, rfl, at_⟩ := mem_neighbors_premise.mp neighbor
    obtain ⟨name, type, value, edge, isJoin, isType, live, found, _, onFact⟩ := placed i k p at_
    refine ⟨.type type p, p, ?_, ?_, ?_⟩
    · simp [replayStep, Rule.stepKey?, isJoin, isType, at_, Key.move]
    · rw [spot_join isJoin]
      exact (FactBase.mem_neighbors_edge found).mpr ⟨_, rfl, onFact⟩
    · rw [spot_join isJoin]
      exact .type live rfl
  | join k =>
    obtain ⟨i, p, rfl, at_⟩ := mem_neighbors_join.mp neighbor
    obtain ⟨name, _, _, edge, isJoin, _, _, found, isRelation, onFact⟩ := placed i k p at_
    refine ⟨.relation edge.relation p, p, ?_, ?_, .relation found rfl⟩
    · simp [replayStep, Rule.stepKey?, isRelation, at_, Key.move]
    · rw [spot_join isJoin]
      exact indexed.mem_neighbors_node.mpr ⟨_, edge, rfl, found, onFact⟩

/-- A step to a neighbour crosses the link of its crossing. -/
theorem Placed.link_eq (placed : Placed facts g j relations types α σ) {v w : JoinVertex}
    (neighbor : w ∈ j.neighbors v) :
    (j.replayStep relations types root α σ (.enter v w)).bind Move.link? =
      (j.crossing? (.enter v w)).map fun c => (c.map α).link facts := by
  rcases crossing?_cases neighbor with
    ⟨i, k, p, rfl, rfl, at_, same⟩ | ⟨i, k, p, rfl, rfl, at_, same⟩ <;>
    obtain ⟨name, type, _, edge, isJoin, isType, _, found, isRelation, onFact⟩ := placed i k p at_
  · simp [same, replayStep, Rule.stepKey?, isJoin, isType, at_, Key.move, Move.link?, Crossing.map,
      Crossing.link, found, onFact, spot]
  · simp [same, replayStep, Rule.stepKey?, isJoin, isRelation, at_, Key.move, Move.link?,
      Crossing.map, Crossing.link, found, onFact, spot]

/-- Sweeping the neighbours of a vertex is replayed by moves that come back to where the vertex
lies. -/
theorem Sweeps.follows (indexed : facts.Indexed) (placed : Placed facts g j relations types α σ)
    {v : JoinVertex} {ws entered entered' : List JoinVertex} {steps : List TourStep}
    (sweeps : j.Sweeps v ws entered steps entered') (rooted : .premise root ∈ entered)
    {below : List Vertex} :
    Follows facts g (j.spot α σ v :: below)
      (steps.filterMap (j.replayStep relations types root α σ)) (j.spot α σ v :: below) := by
  induction sweeps generalizing below with
  | nil => exact .nil
  | skip _ _ ih => exact ih rooted
  | @enter v w ws entered entered₁ entered' inner steps neighbor new inside _ ihInside ihRest =>
    obtain ⟨key, p, move, joined, enters⟩ := placed.step root indexed neighbor
    have leaves : j.replayStep relations types root α σ (.leave w) = some .back := by
      have other : w ≠ .premise root := fun same => new (same ▸ rooted)
      simp [replayStep, other]
    have rooted₁ : .premise root ∈ entered₁ := by
      rw [inside.entered_eq]
      exact List.mem_append_right _ (List.mem_cons_of_mem _ rooted)
    simp only [List.cons_append, List.filterMap_cons, List.filterMap_append, move, leaves]
    exact .cross joined enters
      ((ihInside (List.mem_cons_of_mem _ rooted)).append (.back (ihRest rooted₁)))

/-- The facts that the replay binds are those for the premises that the tour enters. -/
theorem Sweeps.boundFacts_replay (indexed : facts.Indexed)
    (placed : Placed facts g j relations types α σ) {v : JoinVertex}
    {ws entered entered' : List JoinVertex} {steps : List TourStep}
    (sweeps : j.Sweeps v ws entered steps entered') :
    boundFacts (steps.filterMap (j.replayStep relations types root α σ)) =
      (steps.filterMap Rule.enteredPremise?).map α := by
  rw [boundFacts, List.filterMap_filterMap, List.map_filterMap]
  apply List.filterMap_congr
  intro step mem
  cases step with
  | leave w =>
    simp only [replayStep]
    split <;> rfl
  | enter x y =>
    obtain ⟨key, p, move, _⟩ := placed.step root indexed (sweeps.neighbor_of_enter mem)
    rw [move]
    cases y <;> rfl

end JoinGraph

/-! ### The replay of a rule -/

namespace CompiledRule

/-- The walk from a premise: from the witness of its fact onto the fact, and along the tour. -/
def replay (r : CompiledRule) (root : Nat) (e : Edge) (α : Nat → EdgeId) (σ : Valuation) :
    List Move :=
  let j := JoinGraph.ofPremises r.rule.premises
  .cross (.relation e.relation .head) ⟨.node e.head, .edge (α root), .head⟩ ::
    (j.tour root).filterMap (j.replayStep r.premiseRelations r.variableTypes root α σ)

variable {r : CompiledRule} {facts : FactBase} {g : Graph} {α : Nat → EdgeId} {σ : Valuation}

/-- What fills the premises of a typed rule is joined as the premises are. -/
theorem Filled.placed (filled : r.Filled facts g α σ) (typed : r.Typed g.schema)
    (wf : g.WellFormed) (live : ∀ id e, facts.edge? id = some e → g.edges.get? id = some e) :
    JoinGraph.Placed facts g (.ofPremises r.rule.premises) r.premiseRelations r.variableTypes α σ := by
  intro i k p at_
  obtain ⟨t, name, isPremise, isJoin, found⟩ := JoinGraph.placement?_eq_some_iff.mp at_
  have isVar := Term.argAt?_of_positionOf? found
  obtain ⟨e, committed, isRelation, inst⟩ := filled i t isPremise
  obtain ⟨n, onFact, same⟩ := inst p _ isVar
  obtain rfl : σ name = n := same
  obtain ⟨relation, isRelation', R, declared, isR, _, types⟩ := typed.premise isPremise
  obtain rfl : relation = e.relation := Option.some.inj (declared.symm.trans isRelation)
  obtain ⟨type, atType, isType⟩ := types p name (Term.mem_positions.mpr isVar)
  obtain ⟨R', type', value, isR', atType', liveNode⟩ :=
    RuleGenerator.live_of_nodeAt? wf (live _ _ committed) onFact
  obtain rfl : R = R' := Option.some.inj (isR.symm.trans isR')
  obtain rfl : type = type' := Option.some.inj (atType.symm.trans atType')
  exact ⟨name, type, value, e, isJoin, isType, liveNode, committed, isRelation', onFact⟩

variable {path : CompiledPath} {e : Edge}

/-- The replay follows the path of its root, and then steps back. -/
theorem keys_replay (typed : r.Typed g.schema) (mem : path ∈ r.paths)
    (isRelation : r.premiseRelations[path.root]? = some e.relation) :
    path.keys = Rule.dropReturns (pathOf (r.replay path.root e α σ)) := by
  obtain ⟨relation, isRoot, same, _⟩ := typed.paths path mem
  obtain rfl : relation = e.relation := Option.some.inj (isRoot.symm.trans isRelation)
  have keys := congrArg CompiledPath.keys same
  rw [keys, Rule.pathFrom, replay, pathOf_cons, JoinGraph.pathOf_replay]
  rfl

/-- The replay is that of a sweep from the root, after a step onto its fact. -/
theorem exists_sweeps (typed : r.Typed g.schema) (mem : path ∈ r.paths) :
    ∃ steps entered, (JoinGraph.ofPremises r.rule.premises).Sweeps (.premise path.root)
        ((JoinGraph.ofPremises r.rule.premises).neighbors (.premise path.root))
        [.premise path.root] steps entered ∧
      path.termOrder = path.root :: steps.filterMap Rule.enteredPremise? ∧
      ∀ e α σ, r.replay path.root e α σ =
        .cross (.relation e.relation .head) ⟨.node e.head, .edge (α path.root), .head⟩ ::
          steps.filterMap ((JoinGraph.ofPremises r.rule.premises).replayStep r.premiseRelations
            r.variableTypes path.root α σ) := by
  obtain ⟨relation, _, same, _⟩ := typed.paths path mem
  obtain ⟨steps, entered, sweeps, tour, order⟩ :=
    Rule.termOrder_eq (j := .ofPremises r.rule.premises) r.premiseRelations r.variableTypes
      (typed.order mem).1
  refine ⟨steps, entered, sweeps, by rw [← order relation, ← same], ?_⟩
  intro e α σ
  simp [replay, tour, JoinGraph.replayStep]

/-- The replay binds the facts in the order of the path. -/
theorem boundFacts_replay (typed : r.Typed g.schema) (mem : path ∈ r.paths)
    (indexed : facts.Indexed)
    (placed : JoinGraph.Placed facts g (.ofPremises r.rule.premises) r.premiseRelations
      r.variableTypes α σ) :
    boundFacts (r.replay path.root e α σ) = path.termOrder.map α := by
  obtain ⟨steps, entered, sweeps, inOrder, same⟩ := exists_sweeps typed mem
  rw [same, boundFacts_fact, sweeps.boundFacts_replay indexed placed, inOrder, List.map_cons]

/-- The links that the replay crosses are those of the crossings of the path. -/
theorem linksOf_replay (mem : path ∈ r.paths) (typed : r.Typed g.schema)
    (placed : JoinGraph.Placed facts g (.ofPremises r.rule.premises) r.premiseRelations
      r.variableTypes α σ) (found : facts.edge? (α path.root) = some e) :
    linksOf (r.replay path.root e α σ) =
      ((JoinGraph.ofPremises r.rule.premises).crossings path.root).map
        fun c => (c.map α).link facts := by
  obtain ⟨steps, entered, tour, sweeps⟩ := JoinGraph.tour_sweeps
    (j := .ofPremises r.rule.premises) (typed.order mem).1
  rw [replay, JoinGraph.crossings, linksOf_cross, List.map_cons]
  congr 1
  · simp [Crossing.map, Crossing.link, found, Edge.nodeAt?]
  · rw [linksOf, List.filterMap_filterMap, List.map_filterMap]
    apply List.filterMap_congr
    intro step memStep
    cases step with
    | leave v =>
      simp only [JoinGraph.replayStep, JoinGraph.crossing?]
      split <;> rfl
    | enter v w =>
      have inSteps : TourStep.enter v w ∈ steps := by simpa [tour] using memStep
      exact placed.link_eq (sweeps.neighbor_of_enter inSteps)

namespace Filled

/-- The replay crosses no link twice just if the facts open the path. -/
theorem nodup_linksOf_replay (filled : r.Filled facts g α σ) (typed : r.Typed g.schema)
    (wf : g.WellFormed) (live : ∀ id e, facts.edge? id = some e → g.edges.get? id = some e)
    (mem : path ∈ r.paths) (found : facts.edge? (α path.root) = some e) :
    (linksOf (r.replay path.root e α σ)).Nodup ↔ r.rule.Opens path.root α := by
  rw [linksOf_replay mem typed (filled.placed typed wf live) found, Rule.Opens,
    ← List.nodup_map_iff (Crossing.link_injective facts), List.map_map]
  rfl

/-- The stack machine can follow the replay, up to where the path ends. -/
theorem exists_follows (filled : r.Filled facts g α σ) (typed : r.Typed g.schema)
    (wf : g.WellFormed) (live : ∀ id e, facts.edge? id = some e → g.edges.get? id = some e)
    (indexed : facts.Indexed) (mem : path ∈ r.paths) (found : facts.edge? (α path.root) = some e)
    (isRelation : r.premiseRelations[path.root]? = some e.relation) :
    ∃ moves stack, Follows facts g [.node e.head] moves stack ∧ pathOf moves = path.keys ∧
      boundFacts moves = path.termOrder.map α ∧
      linksOf moves = linksOf (r.replay path.root e α σ) := by
  obtain ⟨steps, entered, sweeps, _, same⟩ := exists_sweeps typed mem
  have placed := filled.placed typed wf live
  have run : Follows facts g [.node e.head] (r.replay path.root e α σ)
      [.edge (α path.root), .node e.head] := by
    rw [same]
    exact .cross (indexed.mem_neighbors_node.mpr ⟨_, e, rfl, found, rfl⟩) (.relation found rfl)
      (sweeps.follows indexed placed (List.mem_singleton_self _))
  have bound := boundFacts_replay (e := e) typed mem indexed placed
  have keys := keys_replay (α := α) (σ := σ) typed mem isRelation
  generalize r.replay path.root e α σ = full at run bound keys
  -- The path leaves out the steps back at the end, which cross no links and bind no facts.
  obtain ⟨returns, split, parents⟩ := Rule.exists_returns (pathOf full)
  rw [← keys] at split
  obtain ⟨moves, others, rfl, along, rest⟩ := List.map_eq_append_iff.mp split
  obtain ⟨stack, start, last⟩ := run.of_append
  have back : ∀ m ∈ others, m = .back := fun m memM =>
    last.eq_back memM (parents _ (rest ▸ List.mem_map_of_mem memM))
  have others : others = List.replicate others.length .back := List.eq_replicate_of_mem back
  refine ⟨moves, stack, start, along, ?_, ?_⟩
  · rw [← bound, others, boundFacts_append]
    simp [boundFacts, Move.link?]
  · rw [others, linksOf_append]
    simp [linksOf, Move.link?]

/-- There is a legal walk along a path that the facts open, and it binds them. -/
theorem exists_walk (filled : r.Filled facts g α σ) (typed : r.Typed g.schema)
    (wf : g.WellFormed) (live : ∀ id e, facts.edge? id = some e → g.edges.get? id = some e)
    (indexed : facts.Indexed) (mem : path ∈ r.paths) (found : facts.edge? (α path.root) = some e)
    (isRelation : r.premiseRelations[path.root]? = some e.relation)
    (opens : r.rule.Opens path.root α) :
    ∃ moves, LegalWalk facts g (.node e.head) moves ∧ pathOf moves = path.keys ∧
      boundFacts moves = path.termOrder.map α := by
  obtain ⟨moves, stack, run, along, bound, links⟩ :=
    filled.exists_follows typed wf live indexed mem found isRelation
  have nodup := (filled.nodup_linksOf_replay typed wf live mem found).mpr opens
  rw [← links, ← List.nodup_reverse, ← List.append_nil (linksOf moves).reverse] at nodup
  exact ⟨moves, ⟨_, run.legalRun nodup⟩, along, bound⟩

/-- A legal walk along the path can only bind facts that open it. -/
theorem opens_of_walk (filled : r.Filled facts g α σ) (typed : r.Typed g.schema)
    (wf : g.WellFormed) (live : ∀ id e, facts.edge? id = some e → g.edges.get? id = some e)
    (indexed : facts.Indexed) (mem : path ∈ r.paths) (found : facts.edge? (α path.root) = some e)
    (isRelation : r.premiseRelations[path.root]? = some e.relation) {moves : List Move}
    (walk : LegalWalk facts g (.node e.head) moves) (along : pathOf moves = path.keys)
    (bound : boundFacts moves = path.termOrder.map α) : r.rule.Opens path.root α := by
  obtain ⟨others, stack, follows, along', bound', links⟩ :=
    filled.exists_follows typed wf live indexed mem found isRelation
  obtain ⟨s, run⟩ := walk
  have same := run.follows.eq_of_boundFacts follows (along.trans along'.symm)
    (bound.trans bound'.symm)
  refine (filled.nodup_linksOf_replay typed wf live mem found).mp ?_
  rw [← links, ← same]
  exact run.nodup_links.1

end Filled

end CompiledRule

end ScoredChaining
