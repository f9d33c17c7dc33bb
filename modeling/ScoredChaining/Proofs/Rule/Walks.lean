import ScoredChaining.Proofs.FactBase
import ScoredChaining.Proofs.Pattern.LegalWalk
import ScoredChaining.Proofs.Rule.Tour
import ScoredChaining.Proofs.Rule.Unification

/-!
What a legal walk along the path of a rule binds.

* `Follows.boundEdges_eq`: the facts that a generator reads off its bindings are those that the
  walk crosses onto.
* `Follows.fed`: a walk along the path of a typed rule feeds its generator a fact of the right
  relation for every premise.
* `LegalWalk.head_boundFacts`: the first of them is the fact from whose witness the walk starts.
-/

namespace ScoredChaining

variable {facts : FactBase} {g : Graph}

namespace Follows

variable {stack stack' : List Vertex} {moves : List Move}

/-- The facts that a generator reads off its bindings are those that the walk crosses onto. -/
theorem boundEdges_eq (run : Follows facts g stack moves stack') :
    RuleGenerator.boundEdges (bindingsOf moves) = boundFacts moves := by
  induction run with
  | nil => rfl
  | back _ ih => simpa using ih
  | cross _ enters _ ih =>
    cases enters with
    | relation _ _ =>
      simp only [bindingsOf_cross, boundFacts_fact, ← ih]
      rfl
    | type _ _ =>
      simp only [bindingsOf_cross, boundFacts_node, ← ih]
      rfl

/-- The facts that a walk binds are committed. -/
theorem committed_of_mem (run : Follows facts g stack moves stack') {id : EdgeId}
    (mem : id ∈ boundFacts moves) : ∃ e, facts.edge? id = some e := by
  induction run with
  | nil => cases mem
  | back _ ih => exact ih mem
  | cross _ enters _ ih =>
    cases enters with
    | relation found _ =>
      rcases List.mem_cons.mp mem with rfl | later
      · exact ⟨_, found⟩
      · exact ih later
    | type _ _ => exact ih mem

/-- The facts are of the relations of the path, in order. -/
theorem relations_boundFacts (run : Follows facts g stack moves stack') :
    List.Forall₂ (fun id r => ∃ e, facts.edge? id = some e ∧ e.relation = r) (boundFacts moves)
      ((pathOf moves).filterMap Key.relation?) := by
  induction run with
  | nil => exact .nil
  | back _ ih => exact ih
  | cross _ enters _ ih =>
    cases enters with
    | relation found same => exact .cons ⟨_, found, same⟩ ih
    | type _ _ => exact ih

end Follows

/-- Pairing with what a total map gives is pairing with what it is given. -/
theorem forall₂_of_filterMap {α β γ : Type} {R : α → γ → Prop} {f : β → Option γ} {xs : List α}
    {ys : List β} (total : ∀ y ∈ ys, ∃ z, f y = some z)
    (paired : List.Forall₂ R xs (ys.filterMap f)) :
    List.Forall₂ (fun x y => ∃ z, f y = some z ∧ R x z) xs ys := by
  induction ys generalizing xs with
  | nil =>
    cases paired
    exact .nil
  | cons y ys ih =>
    obtain ⟨⟨z, same⟩, totalRest⟩ := List.forall_mem_cons.mp total
    rw [List.filterMap_cons, same] at paired
    cases paired with
    | cons related rest => exact .cons ⟨z, same, related⟩ (ih totalRest rest)

/-- A path of a rule begins with a step from a witness onto its fact. -/
theorem Rule.head_pathFrom (j : JoinGraph) (relations : List RelationId) (types : VariableTypes)
    (root : Nat) (relation : RelationId) :
    ∃ keys, (pathFrom j relations types root relation).keys = .relation relation .head :: keys := by
  have kept : ∀ (key : Key) (keys : List Key), key ≠ .parent →
      ∃ rest, dropReturns (key :: keys) = key :: rest := by
    intro key keys other
    have last : ∀ xs : List Key, ∃ rest, (xs ++ [key]).dropWhile (· == .parent) = rest ++ [key] := by
      intro xs
      induction xs with
      | nil => exact ⟨[], by simp [other]⟩
      | cons x xs ih =>
        rw [List.cons_append, List.dropWhile_cons]
        split
        · exact ih
        · exact ⟨x :: xs, rfl⟩
    obtain ⟨rest, same⟩ := last keys.reverse
    exact ⟨rest.reverse, by simp [dropReturns, same]⟩
  exact kept _ _ (by simp)

namespace CompiledRule.Typed

variable {r : CompiledRule} {s : Schema}

theorem length_relations (typed : r.Typed s) :
    r.premiseRelations.length = r.rule.premises.length :=
  typed.premises.length_eq.symm

/-- Every premise fits its relation. -/
theorem premise (typed : r.Typed s) {i : Nat} {t : Term} (isPremise : r.rule.premises[i]? = some t) :
    ∃ relation, r.premiseRelations[i]? = some relation ∧ t.Typed s r.variableTypes relation := by
  obtain ⟨bound, rfl⟩ := List.getElem?_eq_some_iff.mp isPremise
  have bound' : i < r.premiseRelations.length := by rwa [typed.length_relations]
  exact ⟨_, List.getElem?_eq_getElem bound', typed.premises.get bound bound'⟩

/-- A path meets every premise once. -/
theorem order (typed : r.Typed s) {path : CompiledPath} (mem : path ∈ r.paths) :
    path.root < r.rule.premises.length ∧
      path.termOrder.Perm (List.range r.rule.premises.length) := by
  obtain ⟨relation, isRoot, same, complete⟩ := typed.paths path mem
  have bound : path.root < r.rule.premises.length := by
    rw [← typed.length_relations]
    exact (List.getElem?_eq_some_iff.mp isRoot).1
  refine ⟨bound, ?_⟩
  rw [same] at complete ⊢
  exact Rule.termOrder_perm (j := .ofPremises r.rule.premises) bound complete

/-- A path meets its root first, and begins with a step from the witness onto the fact. -/
theorem head_path (typed : r.Typed s) {path : CompiledPath} (mem : path ∈ r.paths) :
    (∃ order, path.termOrder = path.root :: order) ∧
      ∃ relation keys, path.keys = .relation relation .head :: keys := by
  obtain ⟨relation, _, same, _⟩ := typed.paths path mem
  obtain ⟨keys, along⟩ := Rule.head_pathFrom (.ofPremises r.rule.premises) r.premiseRelations
    r.variableTypes path.root relation
  rw [same]
  exact ⟨⟨_, rfl⟩, relation, keys, along⟩

/-- The facts that a path meets are of the relations of its premises, in order. -/
theorem relations_path (typed : r.Typed s) {path : CompiledPath} (mem : path ∈ r.paths) :
    path.keys.filterMap Key.relation? = path.termOrder.filterMap (r.premiseRelations[·]?) := by
  obtain ⟨relation, isRoot, same, _⟩ := typed.paths path mem
  rw [same]
  exact Rule.relations_pathFrom (j := .ofPremises r.rule.premises) (typed.order mem).1 isRoot

end CompiledRule.Typed

/-- A walk along the path of a typed rule feeds its generator. -/
theorem Follows.fed {stack stack' : List Vertex} {moves : List Move}
    (run : Follows facts g stack moves stack')
    (live : ∀ id e, facts.edge? id = some e → g.edges.get? id = some e) {r : RuleGenerator}
    (typed : r.rule.Typed g.schema) (mem : r.path ∈ r.rule.paths) (along : pathOf moves = r.path.keys) :
    List.Forall₂ (fun id i => ∃ e, facts.edge? id = some e ∧
      r.rule.premiseRelations[i]? = some e.relation) (boundFacts moves) r.path.termOrder ∧
    RuleGenerator.Fed g r (bindingsOf moves) := by
  have order := (typed.order mem).2
  have total : ∀ i ∈ r.path.termOrder, ∃ relation, r.rule.premiseRelations[i]? = some relation := by
    intro i memI
    have bound : i < r.rule.premiseRelations.length := by
      rw [typed.length_relations]
      exact List.mem_range.mp (order.mem_iff.mp memI)
    exact ⟨_, List.getElem?_eq_getElem bound⟩
  have paired := run.relations_boundFacts
  rw [along, typed.relations_path mem] at paired
  have related := (forall₂_of_filterMap total paired).imp
    (S := fun id i => ∃ e, facts.edge? id = some e ∧
      r.rule.premiseRelations[i]? = some e.relation) (by
    rintro id i ⟨relation, isRelation, e, found, same⟩
    exact ⟨e, found, same ▸ isRelation⟩)
  refine ⟨related, typed, by rw [run.boundEdges_eq, related.length_eq], order, ?_⟩
  intro x pair
  rw [RuleGenerator.assignment, run.boundEdges_eq] at pair
  obtain ⟨e, found, isRelation⟩ := (List.forall₂_iff_zip.mp related).2 pair
  exact ⟨e, live _ _ found, isRelation⟩

/-- A walk that starts at the witness of a fact, along a path that begins with a step from a witness,
moves onto that fact first. -/
theorem LegalWalk.head_move {moves : List Move} {id : EdgeId} {edge : Edge} {r : RelationId}
    {keys : List Key} (indexed : facts.Indexed) (wf : g.WellFormed)
    (live : ∀ id e, facts.edge? id = some e → g.edges.get? id = some e)
    (committed : facts.edge? id = some edge)
    (walk : LegalWalk facts g (.node edge.head) moves)
    (along : pathOf moves = .relation r .head :: keys) :
    edge.relation = r ∧ ∃ rest, pathOf rest = keys ∧
      moves = .cross (.relation r .head) ⟨.node edge.head, .edge id, .head⟩ :: rest := by
  obtain ⟨s, run⟩ := walk
  cases run with
  | nil => cases along
  | @cons _ _ _ m rest legal run =>
    obtain ⟨sameKey, onwards⟩ : m.key = .relation r .head ∧ pathOf rest = keys := by
      simpa using along
    cases legal with
    | @cross _ target _ _ key p neighbor enters _ =>
      simp only [Move.key] at sameKey
      subst sameKey
      cases enters with
      | relation found isRelation =>
        obtain ⟨d, e, same, foundD, at_⟩ := indexed.mem_neighbors_node.mp neighbor
        obtain rfl := Vertex.edge.inj same
        have sameHead : e.head = edge.head := by simpa [Edge.nodeAt?] using at_
        obtain rfl := wf.eq_of_head (live _ _ foundD) (live _ _ committed) sameHead
        obtain rfl := Option.some.inj (found.symm.trans committed)
        exact ⟨isRelation, rest, onwards, rfl⟩

/-- So the first fact of such a walk is that fact. -/
theorem LegalWalk.head_boundFacts {moves : List Move} {id : EdgeId} {edge : Edge} {r : RelationId}
    {keys : List Key} (indexed : facts.Indexed) (wf : g.WellFormed)
    (live : ∀ id e, facts.edge? id = some e → g.edges.get? id = some e)
    (committed : facts.edge? id = some edge)
    (walk : LegalWalk facts g (.node edge.head) moves)
    (along : pathOf moves = .relation r .head :: keys) :
    ∃ rest, boundFacts moves = id :: rest := by
  obtain ⟨_, rest, _, rfl⟩ := walk.head_move indexed wf live committed along
  exact ⟨boundFacts rest, boundFacts_fact _ _ _ _ _⟩

end ScoredChaining
