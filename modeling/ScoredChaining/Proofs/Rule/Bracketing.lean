import ScoredChaining.Proofs.Rule.WellTyped

/-!
Patterns as bracketed walks over the join graph.

The compiler may search the join graph in any depth-first way (`Rule.compileAlong`). The keys that
it reads off the search are replayed on a stack of vertices.

* `CompiledRule.Replays`: the moves that keys ask for, with the vertices that they enter.
* `CompiledRule.replays_of_nested`: steps that come back to a vertex are replayed above it and leave
  the stack as it was.
* `Rule.bracketed_of_compileAlong`: every pattern of a compiled rule is replayed from its root; it
  enters each other vertex once and does not end with a step back.
-/

namespace ScoredChaining

/-- Moves along keys on a stack of vertices of the join graph, whose top comes first, and the
vertices that they enter. -/
inductive CompiledRule.Replays (r : CompiledRule) (s : Schema) (root : Nat) :
    List JoinVertex → List Key → List JoinVertex → Prop where
  | done {stack : List JoinVertex} : Replays r s root stack [] []
  /-- From a premise onto a shared variable, with its type, at its first position there. -/
  | ontoVariable {i k : Nat} {t : Term} {name : String} {type : TypeId} {p : Position}
      {below : List JoinVertex} {keys : List Key} {entered : List JoinVertex} :
      r.rule.premises[i]? = some t → (JoinGraph.ofPremises r.rule.premises).joins[k]? = some name →
      t.positionOf? name = some p → r.variableTypes.lookup name = some type →
      Replays r s root (.join k :: .premise i :: below) keys entered →
      Replays r s root (.premise i :: below) (.type type p :: keys) (.join k :: entered)
  /-- From a shared variable onto a premise, with its relation, at the first position of the
  variable there. -/
  | ontoPremise {i k : Nat} {t : Term} {name : String} {relation : RelationId} {p : Position}
      {below : List JoinVertex} {keys : List Key} {entered : List JoinVertex} :
      r.rule.premises[i]? = some t → (JoinGraph.ofPremises r.rule.premises).joins[k]? = some name →
      t.positionOf? name = some p → s.find? t.relation = some relation →
      Replays r s root (.premise i :: .join k :: below) keys entered →
      Replays r s root (.join k :: below) (.relation relation p :: keys) (.premise i :: entered)
  /-- Back from a vertex other than the root to the one below it. -/
  | back {v w : JoinVertex} {below : List JoinVertex} {keys : List Key}
      {entered : List JoinVertex} : v ≠ .premise root →
      Replays r s root (w :: below) keys entered →
      Replays r s root (v :: w :: below) (.parent :: keys) entered

/-- The pattern is replayed from its root, and enters these vertices. -/
structure CompiledRule.Bracketed (r : CompiledRule) (s : Schema) (path : CompiledPath)
    (entered : List JoinVertex) : Prop where
  /-- After a step from the witness onto the fact of the root, the stack holds the root. -/
  replays : ∃ t relation keys, r.rule.premises[path.root]? = some t ∧
    s.find? t.relation = some relation ∧ path.keys = .relation relation .head :: keys ∧
    r.Replays s path.root [.premise path.root] keys entered
  order : path.termOrder = path.root :: entered.filterMap Rule.premise?
  once : (.premise path.root :: entered).Nodup
  all : ∀ v, v ∈ .premise path.root :: entered ↔ (JoinGraph.ofPremises r.rule.premises).Has v
  tight : path.keys.getLast? ≠ some .parent

namespace CompiledRule

variable {r : CompiledRule} {s : Schema} {root : Nat} {stack : List JoinVertex}
  {keys returns : List Key} {entered : List JoinVertex}

/-- Steps back at the end can be left out. -/
theorem Replays.of_append (replays : r.Replays s root stack (keys ++ returns) entered)
    (parents : ∀ key ∈ returns, key = .parent) : r.Replays s root stack keys entered := by
  generalize isFull : keys ++ returns = full at replays
  induction replays generalizing keys returns with
  | done =>
    obtain ⟨rfl, _⟩ := List.append_eq_nil_iff.mp isFull
    exact .done
  | ontoVariable isPremise isJoin placed typed _ ih =>
    cases keys with
    | nil => cases parents _ (isFull ▸ List.mem_cons_self)
    | cons key keys =>
      obtain ⟨rfl, isRest⟩ := List.cons.inj isFull
      exact .ontoVariable isPremise isJoin placed typed (ih parents isRest)
  | ontoPremise isPremise isJoin placed found _ ih =>
    cases keys with
    | nil => cases parents _ (isFull ▸ List.mem_cons_self)
    | cons key keys =>
      obtain ⟨rfl, isRest⟩ := List.cons.inj isFull
      exact .ontoPremise isPremise isJoin placed found (ih parents isRest)
  | back notRoot replays ih =>
    cases keys with
    | nil =>
      obtain rfl : returns = _ := isFull
      -- nothing is entered by steps back only
      have nothing :=
        ih (fun key mem => parents key (List.mem_cons_of_mem _ mem)) (List.nil_append _)
      cases nothing
      exact .done
    | cons key keys =>
      obtain ⟨rfl, isRest⟩ := List.cons.inj isFull
      exact .back notRoot (ih parents isRest)

variable {v w : JoinVertex} {steps : List TourStep}

/-- The key of a step to a neighbour moves from one vertex onto the other. -/
theorem exists_stepKey? (root : Nat)
    (typed : List.Forall₂ (Term.Typed s r.variableTypes) r.rule.premises r.premiseRelations)
    (neighbor : w ∈ (JoinGraph.ofPremises r.rule.premises).neighbors v) :
    ∃ key, Rule.stepKey? (.ofPremises r.rule.premises) r.premiseRelations r.variableTypes root
        (.enter v w) = some key ∧
      ∀ {below keys entered}, r.Replays s root (w :: v :: below) keys entered →
        r.Replays s root (v :: below) (key :: keys) (w :: entered) := by
  have fits {i : Nat} {t : Term} (isPremise : r.rule.premises[i]? = some t) :
      ∃ relation, r.premiseRelations[i]? = some relation ∧ t.Typed s r.variableTypes relation := by
    obtain ⟨bound, rfl⟩ := List.getElem?_eq_some_iff.mp isPremise
    exact ⟨_, List.getElem?_eq_getElem (typed.length_eq ▸ bound), typed.get bound _⟩
  cases v with
  | premise i =>
    obtain ⟨k, p, rfl, at_⟩ := JoinGraph.mem_neighbors_premise.mp neighbor
    obtain ⟨t, name, isPremise, isJoin, placed⟩ := JoinGraph.placement?_eq_some_iff.mp at_
    obtain ⟨relation, _, R, _, _, _, types⟩ := fits isPremise
    obtain ⟨type, _, isType⟩ :=
      types p name (Term.mem_positions.mpr (Term.argAt?_of_positionOf? placed))
    refine ⟨.type type p, ?_, .ontoVariable isPremise isJoin placed isType⟩
    simp [Rule.stepKey?, isJoin, isType, at_]
  | join k =>
    obtain ⟨i, p, rfl, at_⟩ := JoinGraph.mem_neighbors_join.mp neighbor
    obtain ⟨t, name, isPremise, isJoin, placed⟩ := JoinGraph.placement?_eq_some_iff.mp at_
    obtain ⟨relation, isRelation, R, found, _⟩ := fits isPremise
    refine ⟨.relation relation p, ?_, .ontoPremise isPremise isJoin placed found⟩
    simp [Rule.stepKey?, isRelation, at_]

/-- Steps that come back to a vertex are replayed above it, and leave the stack as it was. -/
theorem replays_of_nested
    (typed : List.Forall₂ (Term.Typed s r.variableTypes) r.rule.premises r.premiseRelations)
    (nested : (JoinGraph.ofPremises r.rule.premises).Nested v steps)
    (fresh : .premise root ∉ steps.filterMap JoinGraph.entered?) {below : List JoinVertex}
    (onwards : r.Replays s root (v :: below) keys entered) :
    r.Replays s root (v :: below)
      (steps.filterMap (Rule.stepKey? (.ofPremises r.rule.premises) r.premiseRelations
        r.variableTypes root) ++ keys)
      (steps.filterMap JoinGraph.entered? ++ entered) := by
  induction nested generalizing below keys entered with
  | nil => exact onwards
  | @child v w inner rest neighbor _ _ ihInner ihRest =>
    simp only [List.cons_append, List.filterMap_cons, List.filterMap_append, JoinGraph.entered?,
      List.mem_cons, List.mem_append, not_or] at fresh
    obtain ⟨notRoot, freshInner, freshRest⟩ := fresh
    obtain ⟨key, isKey, moves⟩ := exists_stepKey? root typed neighbor
    have leaves : Rule.stepKey? (.ofPremises r.rule.premises) r.premiseRelations r.variableTypes
        root (.leave w) = some .parent := if_neg (Ne.symm notRoot)
    simp only [List.cons_append, List.filterMap_cons, List.filterMap_append, isKey, leaves,
      JoinGraph.entered?, List.append_assoc]
    exact moves (ihInner freshInner (.back (Ne.symm notRoot) (ihRest freshRest onwards)))

end CompiledRule

/-! ### Compiled rules -/

namespace Rule

variable {keys : List Key}

theorem getLast?_dropReturns (keys : List Key) : (dropReturns keys).getLast? ≠ some .parent := by
  rw [dropReturns, List.getLast?_reverse]
  have stops := List.head?_dropWhile_not (· == Key.parent) keys.reverse
  intro last
  rw [last] at stops
  simp at stops

/-- Only the steps back after the first key can be dropped. -/
theorem exists_dropReturns_cons (relation : RelationId) (p : Position) (keys : List Key) :
    ∃ kept returns, dropReturns (.relation relation p :: keys) = .relation relation p :: kept ∧
      keys = kept ++ returns ∧ ∀ key ∈ returns, key = .parent := by
  obtain ⟨returns, split, parents⟩ := exists_returns (.relation relation p :: keys)
  cases kept : dropReturns (.relation relation p :: keys) with
  | nil =>
    rw [kept] at split
    cases parents _ (split ▸ List.mem_cons_self)
  | cons key rest =>
    rw [kept] at split
    obtain ⟨rfl, isRest⟩ := List.cons.inj split
    exact ⟨rest, returns, rfl, isRest, parents⟩

/-- A search of a connected rule makes a bracketed pattern. -/
theorem bracketed_pathAlong {r : CompiledRule} {s : Schema} {root : Nat} {relation : RelationId}
    {steps : List TourStep}
    (typed : List.Forall₂ (Term.Typed s r.variableTypes) r.rule.premises r.premiseRelations)
    (isRoot : r.premiseRelations[root]? = some relation)
    (search : (JoinGraph.ofPremises r.rule.premises).DepthFirst (.premise root) steps)
    (complete : (root :: steps.filterMap enteredPremise?).length = r.rule.premises.length) :
    r.Bracketed s (pathAlong (.ofPremises r.rule.premises) r.premiseRelations r.variableTypes root
      relation steps) (steps.filterMap JoinGraph.entered?) := by
  obtain ⟨bound', isRelation⟩ := List.getElem?_eq_some_iff.mp isRoot
  have bound : root < r.rule.premises.length := typed.length_eq ▸ bound'
  have fits := typed.get bound bound'
  rw [List.get_eq_getElem, List.get_eq_getElem, isRelation] at fits
  obtain ⟨R, found, _⟩ := fits
  have reaches : ∀ i < r.rule.premises.length,
      (JoinGraph.ofPremises r.rule.premises).Reaches (.premise root) (.premise i) :=
    (length_order_iff (j := .ofPremises r.rule.premises) bound search).mp complete
  refine ⟨?_, ?_, search.once, fun v => ?_, getLast?_dropReturns _⟩
  · obtain ⟨below, rfl, nested⟩ := search.nested
    have fresh : .premise root ∉ below.filterMap JoinGraph.entered? :=
      fun mem => (List.nodup_cons.mp search.once).1 (by simp [mem])
    have leaves : stepKey? (.ofPremises r.rule.premises) r.premiseRelations r.variableTypes root
        (.leave (.premise root)) = none := if_pos rfl
    obtain ⟨kept, returns, isKept, split, parents⟩ := exists_dropReturns_cons relation .head
      (below.filterMap
        (stepKey? (.ofPremises r.rule.premises) r.premiseRelations r.variableTypes root))
    have atEnd : r.Replays s root [.premise root] [] [] := .done
    have replays := CompiledRule.replays_of_nested typed nested fresh atEnd
    rw [List.append_nil, List.append_nil, split] at replays
    refine ⟨_, relation, kept, List.getElem?_eq_getElem bound, found, ?_, ?_⟩
    · simpa [pathAlong, leaves] using isKept
    · have same : (below ++ [TourStep.leave (.premise root)]).filterMap JoinGraph.entered? =
          below.filterMap JoinGraph.entered? := by
        simp [JoinGraph.entered?]
      rw [same]
      exact replays.of_append parents
  · rw [pathAlong, filterMap_enteredPremise?]
  · refine search.mem_entered_iff.trans ⟨?_, ?_⟩
    · rintro (_ | ⟨_, neighbor⟩)
      · exact bound
      · exact JoinGraph.has_of_mem_neighbors neighbor
    · intro has
      cases v with
      | premise i => exact reaches i has
      | join k =>
        obtain ⟨i, p, placed⟩ := JoinGraph.exists_placement_of_join has
        exact .tail (reaches i (JoinGraph.bounds_of_placement? placed).1)
          (JoinGraph.mem_neighbors_premise.mpr ⟨k, p, rfl, placed⟩)

/-- However the join graph is searched depth first, a rule that compiles has one pattern from each
premise, in order, and every pattern is bracketed. -/
theorem bracketed_of_compileAlong {search : JoinGraph → Nat → List TourStep}
    (isSearch : ∀ (j : JoinGraph) (root : Nat), root < j.premises.length →
      j.DepthFirst (.premise root) (search j root))
    {rule : Rule} {s : Schema} {r : CompiledRule}
    (compiled : (rule.compileAlong search s).1 = .ok r) :
    r.paths.map CompiledPath.root = List.range rule.premises.length ∧
      ∀ path ∈ r.paths, ∃ entered, r.Bracketed s path entered := by
  obtain ⟨typed, _, _, made, rfl⟩ := compileAlong_eq_ok_iff.mp (Prod.ext compiled rfl)
  have premises := (typePremises_spec typed).2.1
  obtain ⟨roots, paths⟩ := pathsAlong_spec made
  refine ⟨?_, fun path mem => ?_⟩
  · rw [roots, ← premises.length_eq, List.range_eq_range']
  · obtain ⟨root, relation, isRoot, rfl, complete⟩ := paths path mem
    rw [Nat.zero_add] at complete ⊢
    have bound : root < r.rule.premises.length :=
      premises.length_eq ▸ (List.getElem?_eq_some_iff.mp isRoot).1
    exact ⟨_, bracketed_pathAlong premises isRoot (isSearch _ root bound) complete⟩

/-- Three points with links all around. The search from a premise comes back to its first variable
over the other two premises. -/
def triangleRule : Rule :=
  ⟨[⟨"link", none, [.var "x", .var "y"]⟩, ⟨"link", none, [.var "y", .var "z"]⟩,
      ⟨"link", none, [.var "z", .var "x"]⟩],
    ⟨"triangle", none, [.var "x"]⟩, none⟩

theorem bracketed_triangleRule :
    (∀ (j : JoinGraph) (root : Nat), root < j.premises.length →
      j.DepthFirst (.premise root) (j.tour root)) ∧
    ∃ r, (triangleRule.compileAlong JoinGraph.tour marked).1 = .ok r ∧
      r.paths.map CompiledPath.root = List.range 3 ∧
      ∀ path ∈ r.paths, ∃ entered, r.Bracketed marked path entered := by
  have isSearch : ∀ (j : JoinGraph) (root : Nat), root < j.premises.length →
      j.DepthFirst (.premise root) (j.tour root) := fun _ _ => JoinGraph.depthFirst_tour
  have compiles : (triangleRule.compileAlong JoinGraph.tour marked).1.isOk = true := by
    decide +kernel
  cases answer : (triangleRule.compileAlong JoinGraph.tour marked).1 with
  | error failure => simp [answer, Except.isOk, Except.toBool] at compiles
  | ok r => exact ⟨isSearch, r, rfl, bracketed_of_compileAlong isSearch answer⟩

end Rule

end ScoredChaining
