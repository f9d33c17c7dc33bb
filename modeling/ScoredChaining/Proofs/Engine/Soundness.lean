import ScoredChaining.Proofs.Engine.History
import ScoredChaining.Proofs.Rule.Instances

/-!
What matching finds and what rules propose.

* `Engine.Reachable.matchEdge_enumerates`: matching a committed fact finds every legal walk along a
  path that carries actions, once.
* `Engine.Reachable.proposals_sound`: whatever is proposed while an operation takes effect is the
  conclusion of a rule, drawn from committed facts that fill its premises.
-/

namespace ScoredChaining.Engine

variable {Custom : Type} [Decider Custom]

variable {e : Engine Custom}

/-! ### Matching -/

/-- The matches of a committed fact are, one for one, the pairs of a path that carries actions and a
legal walk along it from the witness of the fact. A match has the actions at the end of the path, and
the bindings of the walk. -/
theorem Reachable.matchEdge_enumerates {γ φ : Type} (reachable : Reachable e) (t : Trie γ φ)
    {id : EdgeId} {edge : Edge} (committed : e.facts.edge? id = some edge) :
    ∃ found stats, t.matchEdge e.facts e.graph id = .ok (found, stats) ∧
      ∃ pairs : List (List Key × List Move), pairs.Nodup ∧
        (∀ path moves, (path, moves) ∈ pairs ↔ (∃ a, t.actionsAt? path = some a) ∧
          LegalWalk e.facts e.graph (.node edge.head) moves ∧ pathOf moves = path) ∧
        List.Forall₂ (fun m pair => t.actionsAt? pair.1 = some m.actions ∧
          m.bindings = bindingsOf pair.2) found pairs := by
  have coherent := reachable.coherent
  obtain ⟨stats, matched⟩ := coherent.matchEdge_eq t committed
  have nodup := t.nodup_walks (g := e.graph) coherent.facts.nodup_neighbors
    (.start (.node edge.head))
  have mem_iff (moves : List Move) (a : Actions γ φ) :
      (moves, a) ∈ t.walks e.facts e.graph (.start (.node edge.head)) ↔
        LegalWalk e.facts e.graph (.node edge.head) moves ∧
          t.actionsAt? (pathOf moves) = some a := Trie.mem_walks_iff
  generalize t.walks e.facts e.graph (.start (.node edge.head)) = walks at matched nodup mem_iff
  refine ⟨_, stats, matched, walks.map fun walk => (pathOf walk.1, walk.1), ?_, ?_, ?_⟩
  · -- A walk has the actions at the end of its path, so no two entries have the same moves.
    apply nodup.map_on
    intro walk listed other listed' same
    have moves : walk.1 = other.1 := (Prod.mk.inj same).2
    have found := ((mem_iff _ _).mp listed).2
    rw [moves] at found
    exact Prod.ext moves (Option.some.inj (found.symm.trans ((mem_iff _ _).mp listed').2))
  · intro path moves
    rw [List.mem_map]
    constructor
    · rintro ⟨⟨_, a⟩, listed, same⟩
      obtain ⟨rfl, rfl⟩ := Prod.mk.inj same
      obtain ⟨legal, found⟩ := (mem_iff _ _).mp listed
      exact ⟨⟨a, found⟩, legal, rfl⟩
    · rintro ⟨⟨a, found⟩, legal, rfl⟩
      exact ⟨(moves, a), (mem_iff _ _).mpr ⟨legal, found⟩, rfl⟩
  · rw [List.forall₂_map_left_iff, List.forall₂_map_right_iff, List.forall₂_same]
    exact fun walk listed => ⟨((mem_iff _ _).mp listed).2, rfl⟩

theorem matchEdge_enumerates_chained : Reachable chained ∧
    chained.facts.edge? ⟨.temporary, 0⟩ =
      some ⟨⟨0⟩, ⟨.temporary, 2⟩, [⟨.temporary, 0⟩, ⟨.temporary, 1⟩]⟩ ∧
    ∃ found stats, chained.trie.matchEdge chained.facts chained.graph ⟨.temporary, 0⟩ =
      .ok (found, stats) ∧
      ∃ pairs : List (List Key × List Move), pairs.Nodup ∧
        (∀ path moves, (path, moves) ∈ pairs ↔ (∃ a, chained.trie.actionsAt? path = some a) ∧
          LegalWalk chained.facts chained.graph (.node ⟨.temporary, 2⟩) moves ∧
          pathOf moves = path) ∧
        List.Forall₂ (fun m pair => chained.trie.actionsAt? pair.1 = some m.actions ∧
          m.bindings = bindingsOf pair.2) found pairs := by
  have committed : chained.facts.edge? ⟨.temporary, 0⟩ =
      some ⟨⟨0⟩, ⟨.temporary, 2⟩, [⟨.temporary, 0⟩, ⟨.temporary, 1⟩]⟩ := by decide +kernel
  exact ⟨reachable_chained, committed,
    Reachable.matchEdge_enumerates reachable_chained chained.trie committed⟩

/-! ### Firing -/

/-- A call is given committed facts, the first of which is the new one, for the root of the path. -/
theorem Fires.assignment_spec {op : Operation Custom} {id : EdgeId} {edge : Edge}
    (coherent : e.Coherent) (fires : Fires e op id edge) {f : Firing} (mem : f ∈ op.firings e) :
    (∀ x ∈ f.assignment, ∃ edge, (op.perform e).facts.edge? x.1 = some edge) ∧
      (f.fact, f.generator.path.root) ∈ f.assignment := by
  obtain ⟨isFact, moves, walk, at_, bindings⟩ := fires.exists_walk mem
  obtain ⟨isRule, isPath, along⟩ := coherent.attached _ _ (List.mem_of_getElem? at_)
  obtain ⟨⟨order, inOrder⟩, relation, keys, begins⟩ := (coherent.typed _ isRule).head_path isPath
  have assigned : f.assignment = (boundFacts moves).zip f.generator.path.termOrder := by
    obtain ⟨_, run⟩ := walk
    rw [Firing.assignment, RuleGenerator.assignment, bindings, run.follows.boundEdges_eq]
  rw [assigned]
  rw [← fires.facts] at walk
  constructor
  · intro x paired
    obtain ⟨_, run⟩ := walk
    exact run.follows.committed_of_mem (List.of_mem_zip paired).1
  · obtain ⟨rest, bound⟩ := walk.head_boundFacts (coherent.perform op).facts coherent.graph
      (fires.live_of_committed coherent) fires.committed (along.symm.trans begins)
    rw [bound, inOrder, isFact]
    exact List.mem_cons_self

/-- What a call proposes is the conclusion of its rule, drawn from committed facts. -/
theorem Fires.proposal_spec {op : Operation Custom} {id : EdgeId} {edge : Edge}
    (coherent : e.Coherent)
    (fires : Fires e op id edge) {f : Firing} (mem : f ∈ op.firings e) {p : Proposal}
    (proposed : p ∈ f.proposals) :
    ∃ α σ, (∀ x ∈ f.assignment, α x.2 = x.1) ∧
      f.generator.rule.Filled (op.perform e).facts (op.perform e).graph α σ ∧
      f.generator.rule.Concludes (op.perform e).graph σ p.edge := by
  obtain ⟨committed, _⟩ := fires.assignment_spec coherent mem
  obtain ⟨wf, fed, _, after⟩ := fires.called f mem
  have grows := (f.generator.generate_spec wf fed).1
  obtain ⟨σ, instances, drawn⟩ := Firing.concludes wf fed proposed
  have during : f.graph.Extends (op.perform e).graph := grows.extends_.trans after
  have agree : ∀ x ∈ f.assignment, ∀ d, f.graph.edges.get? x.1 = some d →
      (op.perform e).facts.edge? x.1 = some d := by
    intro x paired d live
    obtain ⟨d', found⟩ := committed x paired
    have live' := (coherent.perform op).committed _ _ found
    rw [during.edges _ _ live] at live'
    rw [found, live']
  obtain ⟨α, agrees, filled⟩ := fed.exists_filled agree instances
  exact ⟨α, σ, agrees, filled.mono during,
    (drawn.concludes (fed.typed.mono grows.extends_.schema)).mono after⟩

/-- Whatever is proposed while an operation takes effect is the conclusion of a rule of the engine:
there are committed facts for its premises, the new fact for the root of its path among them, and
nodes for its variables. -/
theorem Reachable.proposals_sound (reachable : Reachable e) (op : Operation Custom) :
    (∀ f ∈ op.firings e, (op.perform e).facts.order = e.facts.order ++ [f.fact] ∧
      ∀ p ∈ f.proposals, f.generator.rule ∈ e.rules ∧ f.generator.path ∈ f.generator.rule.paths ∧
        ∃ α σ, α f.generator.path.root = f.fact ∧ (∀ x ∈ f.assignment, α x.2 = x.1) ∧
          f.generator.rule.Filled (op.perform e).facts (op.perform e).graph α σ ∧
          f.generator.rule.Concludes (op.perform e).graph σ p.edge) ∧
      ∀ id ∈ (op.perform e).agenda.pending, id ∈ e.agenda.pending ∨
        (∃ f ∈ op.firings e, ∃ p ∈ f.proposals, p.edge = id) ∨
        ∃ score, op = .addCandidate id score := by
  have coherent := reachable.coherent
  rcases coherent.fires_or_quiet op with ⟨id, edge, fires⟩ | quiet
  · refine ⟨fun f mem => ⟨?_, fun p proposed => ?_⟩, fun d mem => ?_⟩
    · rw [fires.order, (fires.exists_walk mem).1]
    · obtain ⟨_, _, _, at_, _⟩ := fires.exists_walk mem
      obtain ⟨isRule, isPath, _⟩ := coherent.attached _ _ (List.mem_of_getElem? at_)
      obtain ⟨α, σ, agrees, filled, concludes⟩ := fires.proposal_spec coherent mem proposed
      exact ⟨isRule, isPath, α, σ, agrees _ (fires.assignment_spec coherent mem).2, agrees, filled,
        concludes⟩
    · exact (fires.pending d mem).imp_right .inl
  · refine ⟨fun f mem => ?_, fun d mem => (quiet.pending d mem).imp_right .inr⟩
    rw [quiet.firings] at mem
    cases mem

/-- Committing the second link proposes a path. -/
theorem proposals_sound_chained : Reachable chained ∧
    ((Operation.commit ⟨.temporary, 1⟩ true).firings chained).map (·.proposals.length) = [1] ∧
    ∀ f ∈ (Operation.commit ⟨.temporary, 1⟩ true).firings chained, ∀ p ∈ f.proposals,
      f.generator.rule ∈ chained.rules ∧ ∃ α σ, α f.generator.path.root = f.fact ∧
        f.generator.rule.Filled (chained.commitWith ⟨.temporary, 1⟩ true).2.facts
          (chained.commitWith ⟨.temporary, 1⟩ true).2.graph α σ ∧
        f.generator.rule.Concludes (chained.commitWith ⟨.temporary, 1⟩ true).2.graph σ p.edge := by
  refine ⟨reachable_chained, by decide +kernel, ?_⟩
  intro f mem p proposed
  obtain ⟨isRule, _, α, σ, isFact, _, filled, concludes⟩ :=
    ((Reachable.proposals_sound reachable_chained (.commit ⟨.temporary, 1⟩ true)).1 f mem).2 p proposed
  exact ⟨isRule, α, σ, isFact, filled, concludes⟩

end ScoredChaining.Engine
