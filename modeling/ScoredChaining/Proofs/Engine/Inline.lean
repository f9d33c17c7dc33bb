import ScoredChaining.Proofs.Engine.Agreement
import ScoredChaining.Proofs.Engine.Forgetting
import ScoredChaining.Proofs.Engine.Recording

/-!
Taking effect during the walk.

The engine finds all patterns that a fact completes before the first of them has any effect. Here is
the other order: at every tree node that the walk reaches, the generators and factors of the node
take effect at once, and the walk goes on through the graph as it is then (`Engine.fireInline`).

* `Engine.Performs`: a visit in that order has the effects of the walks that the tree lists for the
  graph at the beginning, one after the other. What a generator adds to the graph neither opens nor
  closes a step of the walk, since steps lead along committed facts.
* `Engine.Reachable.inline_eq`: both orders leave the same engine and give the same answer.
-/

namespace ScoredChaining

variable {Custom : Type} [Decider Custom]

namespace Engine

/-! ### The walk with effects -/

/-- A walk under way, and the engine as it is by then. -/
structure LiveWalk (Custom : Type) [Decider Custom] where
  trace : Trace
  engine : Engine Custom

/-- The visit of a tree node while the walk stands at a vertex. -/
abbrev LiveVisit (Custom : Type) [Decider Custom] :=
  Vertex → LiveWalk Custom → Except EngineError Unit × LiveWalk Custom

/-- So many more patterns are completed. -/
def countMatched (n : Nat) (e : Engine Custom) : Engine Custom :=
  { e with stats := { e.stats with matched := e.stats.matched + n } }

namespace LiveWalk

/-- Counts the pattern that ends at the visited node, and runs its actions. -/
def complete (w : LiveWalk Custom) :
    Option (Actions RuleGenerator Factor) → Except EngineError Unit × LiveWalk Custom
  | none => (.ok (), w)
  | some a =>
    let (result, engine) := runMatch ⟨a, w.trace.bindings.reverse⟩ (w.engine.countMatched 1)
    (result, { w with engine })

/-- Steps back to the previous vertex, if there is one, visits it, and returns. -/
def stepBack (w : LiveWalk Custom) (visit : LiveVisit Custom) :
    Except EngineError Unit × LiveWalk Custom :=
  match w.trace.stack with
  | top :: previous :: rest =>
    let (result, w) := visit previous { w with trace := { w.trace with stack := previous :: rest } }
    (result, { w with trace := { w.trace with stack := top :: w.trace.stack } })
  | _ => (.ok (), w)

/-- Crosses a link that is not crossed, visits its target, and takes the crossing back. -/
def stepOver (w : LiveWalk Custom) (key : Key) (l : Link) (visit : LiveVisit Custom) :
    Except EngineError Unit × LiveWalk Custom :=
  match w.trace.cross? key l with
  | none => (.ok (), w)
  | some trace =>
    let (result, w) := visit l.target { w with trace }
    (result, { w with trace := w.trace.uncross })

/-- Steps to a neighbour of the present vertex if there is a branch for it. -/
def stepTo (branch : Key → Option (LiveVisit Custom)) (current : Vertex) (w : LiveWalk Custom)
    (neighbor : Vertex × Position) : Except EngineError Unit × LiveWalk Custom :=
  let l : Link := ⟨current, neighbor.1, neighbor.2⟩
  if w.trace.isCrossed l then (.ok (), w)
  else
    match stepKey w.engine.facts w.engine.graph neighbor.2 neighbor.1 with
    | .error failure => (.error (.store failure), w)
    | .ok key =>
      match branch key with
      | none => (.ok (), w)
      | some visit => w.stepOver key l visit

/-- Steps to each neighbour in order. -/
def stepToEach (branch : Key → Option (LiveVisit Custom)) (current : Vertex) :
    List (Vertex × Position) → LiveWalk Custom → Except EngineError Unit × LiveWalk Custom
  | [], w => (.ok (), w)
  | neighbor :: rest, w =>
    match w.stepTo branch current neighbor with
    | (.error failure, w) => (.error failure, w)
    | (.ok (), w) => stepToEach branch current rest w

end LiveWalk

/-- Visits a tree node with the given actions and branches: runs the actions, then steps back, then
to each neighbour in order. -/
def visitNodeLive (actions : Option (Actions RuleGenerator Factor)) (isLeaf : Bool)
    (branch : Key → Option (LiveVisit Custom)) : LiveVisit Custom := fun current w =>
  match w.complete actions with
  | (.error failure, w) => (.error failure, w)
  | (.ok (), w) =>
    if isLeaf then (.ok (), w)
    else
      let back : Except EngineError Unit × LiveWalk Custom :=
        match branch .parent with
        | none => (.ok (), w)
        | some visit => w.stepBack visit
      match back with
      | (.error failure, w) => (.error failure, w)
      | (.ok (), w) => LiveWalk.stepToEach branch current (w.engine.facts.neighbors current) w

end Engine

mutual

/-- The visit of the root of a tree, with effects. -/
def Trie.visitLive : Trie RuleGenerator Factor → Engine.LiveVisit Custom
  | .node actions branches =>
    Engine.visitNodeLive actions branches.isEmpty (Branches.visitLive? branches)

/-- The visit of the child under a key, with effects. -/
def Branches.visitLive? : Branches RuleGenerator Factor → Key → Option (Engine.LiveVisit Custom)
  | .nil, _ => none
  | .cons k child rest, key =>
    if key = k then some (Trie.visitLive child) else Branches.visitLive? rest key

end

namespace Engine

variable {e e' e'' : Engine Custom} {id : EdgeId} {edge : Edge}

/-- Matches a committed fact against the patterns, each of which takes effect when the walk
completes it. -/
def fireInline (e : Engine Custom) (id : EdgeId) : Except EngineError Unit × Engine Custom :=
  match e.facts.edge? id with
  | none => (.error (.store (.unknownEdge id)), e)
  | some edge =>
    let start := Vertex.node edge.head
    let (result, w) := e.trie.visitLive start ⟨.start start, e⟩
    (result, w.engine)

/-- Commits a fact and matches it against the patterns in that order. -/
def commitInline (e : Engine Custom) (id : EdgeId) : Except EngineError Bool × Engine Custom :=
  match e.graph.edge id with
  | .error failure => (.error (.store failure), e)
  | .ok edge =>
    match e.record id edge with
    | (false, e) => (.ok false, e)
    | (true, e) =>
      match e.fireInline id with
      | (.error failure, e) => (.error failure, e)
      | (.ok (), e) => (.ok true, e)

/-! ### Matches one by one -/

/-- The effects of completed patterns, in order, each counted when it takes effect. -/
def runEach : List (Match RuleGenerator Factor) → Engine Custom →
    Except EngineError Unit × Engine Custom
  | [], e => (.ok (), e)
  | m :: rest, e =>
    match runMatch m (e.countMatched 1) with
    | (.error failure, e) => (.error failure, e)
    | (.ok (), e) => runEach rest e

theorem runEach_cons_iff {m : Match RuleGenerator Factor}
    {rest : List (Match RuleGenerator Factor)} :
    runEach (m :: rest) e = (.ok (), e'') ↔
      ∃ e', runMatch m (e.countMatched 1) = (.ok (), e') ∧ runEach rest e' = (.ok (), e'') := by
  rw [runEach]
  generalize runMatch m (e.countMatched 1) = answer
  obtain ⟨_ | _, e₁⟩ := answer <;> simp

theorem runEach_append_iff {found later : List (Match RuleGenerator Factor)} :
    runEach (found ++ later) e = (.ok (), e'') ↔
      ∃ e', runEach found e = (.ok (), e') ∧ runEach later e' = (.ok (), e'') := by
  induction found generalizing e with
  | nil => simp [runEach]
  | cons m rest ih =>
    simp only [List.cons_append, runEach_cons_iff, ih]
    constructor
    · rintro ⟨e₁, first, e₂, second, third⟩
      exact ⟨e₂, ⟨e₁, first, second⟩, third⟩
    · rintro ⟨e₂, ⟨e₁, first, second⟩, third⟩
      exact ⟨e₁, first, e₂, second, third⟩

/-! ### Counting is apart from everything else -/

@[simp] theorem agenda_countMatched (n : Nat) (e : Engine Custom) :
    (e.countMatched n).agenda = e.agenda := rfl

@[simp] theorem graph_countMatched (n : Nat) (e : Engine Custom) :
    (e.countMatched n).graph = e.graph := rfl

@[simp] theorem priority_countMatched (n : Nat) (e : Engine Custom) :
    (e.countMatched n).priority = e.priority := rfl

/-- What `n` more completed patterns make of an answer. -/
def counting (n : Nat) {α : Type} (answer : Except EngineError α × Engine Custom) :
    Except EngineError α × Engine Custom :=
  (answer.1, answer.2.countMatched n)

theorem addCandidate_countMatched (n : Nat) (e : Engine Custom) (id : EdgeId) (score : Score) :
    (e.countMatched n).addCandidate id score = counting n (e.addCandidate id score) := by
  have same : ((e.countMatched n).agenda.contains id || (e.countMatched n).facts.contains id) =
    (e.agenda.contains id || e.facts.contains id) := rfl
  rw [addCandidate, addCandidate, same]
  split
  · rfl
  · simp only [agenda_countMatched, graph_countMatched, priority_countMatched]
    cases e.graph.edge id with
    | error failure => rfl
    | ok edge =>
      simp only
      generalize e.agenda.add id edge score (e.priority.of e.graph edge score) = answer
      obtain ⟨_ | _, agenda⟩ := answer <;> rfl

theorem propose_countMatched (n : Nat) (proposals : List Proposal) (e : Engine Custom) :
    propose proposals (e.countMatched n) = counting n (propose proposals e) := by
  induction proposals generalizing e with
  | nil => rfl
  | cons p rest ih =>
    let counted : Engine Custom :=
      { e with stats := { e.stats with generated := e.stats.generated + 1 } }
    have first := addCandidate_countMatched n counted p.edge p.score
    rw [propose, propose]
    simp only [countMatched, counted] at first ⊢
    rw [first]
    simp only [counting]
    generalize addCandidate (_ : Engine Custom) p.edge p.score = answer
    obtain ⟨_ | _, e'⟩ := answer
    · rfl
    · exact ih e'

theorem runGenerators_countMatched (n : Nat) (bindings : List Binding)
    (generators : List RuleGenerator) (e : Engine Custom) :
    runGenerators bindings generators (e.countMatched n) =
      counting n (runGenerators bindings generators e) := by
  induction generators generalizing e with
  | nil => rfl
  | cons r rest ih =>
    rw [runGenerators, runGenerators]
    simp only [graph_countMatched]
    generalize r.generate bindings e.graph = answer
    obtain ⟨_ | proposals, graph⟩ := answer
    · rfl
    · let counted : Engine Custom :=
        { e with graph, stats := { e.stats with firings := e.stats.firings + 1 } }
      have first := propose_countMatched n proposals counted
      simp only [countMatched, counted] at first ⊢
      rw [first]
      simp only [counting]
      generalize propose proposals (_ : Engine Custom) = answer
      obtain ⟨_ | _, e'⟩ := answer
      · rfl
      · exact ih e'

theorem runFactors_countMatched (n : Nat) (bindings : List Binding) (factors : List Factor)
    (e : Engine Custom) : runFactors bindings factors (e.countMatched n) =
      counting n (runFactors bindings factors e) := by
  induction factors generalizing e with
  | nil => rfl
  | cons f rest ih =>
    rw [runFactors, runFactors]
    simp only [agenda_countMatched, graph_countMatched, priority_countMatched]
    generalize f.rescore bindings e.graph e.priority e.agenda = answer
    obtain ⟨_ | _, agenda⟩ := answer
    · rfl
    · exact ih { e with agenda }

theorem runMatch_countMatched (n : Nat) (m : Match RuleGenerator Factor) (e : Engine Custom) :
    runMatch m (e.countMatched n) = counting n (runMatch m e) := by
  rw [runMatch, runMatch, runGenerators_countMatched]
  simp only [counting]
  generalize runGenerators m.bindings m.actions.generators e = answer
  obtain ⟨_ | _, e'⟩ := answer
  · rfl
  · exact runFactors_countMatched n m.bindings m.actions.factors e'

theorem countMatched_add (m n : Nat) (e : Engine Custom) :
    e.countMatched (m + n) = (e.countMatched m).countMatched n := by
  simp [countMatched, Nat.add_assoc]

/-- It makes no difference whether the patterns are counted before the first takes effect. -/
theorem runEach_of_runMatches {found : List (Match RuleGenerator Factor)}
    (runs : runMatches found (e.countMatched found.length) = (.ok (), e')) :
    runEach found e = (.ok (), e') := by
  induction found generalizing e with
  | nil => exact runs
  | cons m rest ih =>
    rw [runMatches, List.length_cons, Nat.add_comm, countMatched_add, runMatch_countMatched] at runs
    rw [runEach]
    simp only [counting] at runs
    generalize runMatch m (e.countMatched 1) = answer at runs ⊢
    obtain ⟨_ | _, e₁⟩ := answer
    · cases (Prod.mk.inj runs).1
    · exact ih runs

/-! ### What the walk sees -/

/-- The graph grows by the conclusions that are drawn. -/
theorem runGenerators_grows (wf : e.graph.WellFormed) (bindings : List Binding)
    (generators : List RuleGenerator) :
    Graph.Grows e.graph (runGenerators bindings generators e).2.graph := by
  induction generators generalizing e with
  | nil => exact .refl wf
  | cons r rest ih =>
    have asked := r.generate_grows wf bindings
    rw [runGenerators]
    simp only
    generalize r.generate bindings e.graph = answer at asked
    obtain ⟨_ | proposals, graph⟩ := answer
    · exact asked
    · let counted : Engine Custom :=
        { e with graph, stats := { e.stats with firings := e.stats.firings + 1 } }
      have proposed : (propose proposals counted).2.graph = graph := graph_propose proposals counted
      simp only
      generalize propose proposals counted = answer at proposed
      obtain ⟨_ | _, e'⟩ := answer
      · exact proposed ▸ asked
      · replace proposed : e'.graph = graph := proposed
        subst proposed
        exact asked.trans (ih asked.wellFormed)

theorem runMatch_grows (wf : e.graph.WellFormed) (m : Match RuleGenerator Factor) :
    Graph.Grows e.graph (runMatch m e).2.graph := by
  have asked := runGenerators_grows wf m.bindings m.actions.generators
  rw [runMatch]
  generalize runGenerators m.bindings m.actions.generators e = answer at asked
  obtain ⟨_ | _, e'⟩ := answer
  · exact asked
  · rw [graph_runFactors]
    exact asked

/-- The engine has these facts, and a graph that this one has grown to. -/
structure Later (facts : FactBase) (g : Graph) (e : Engine Custom) : Prop where
  facts : e.facts = facts
  grows : Graph.Grows g e.graph

namespace Later

variable {facts : FactBase} {g : Graph} {found : List (Match RuleGenerator Factor)}

theorem refl (wf : e.graph.WellFormed) : Later e.facts e.graph e :=
  ⟨rfl, .refl wf⟩

/-- Actions leave the facts alone, and let the graph grow. -/
theorem runMatch (later : Later facts g e) (m : Match RuleGenerator Factor) :
    Later facts g (Engine.runMatch m e).2 :=
  ⟨(Steady.runMatch m e).facts.trans later.facts,
    later.grows.trans (runMatch_grows later.grows.wellFormed m)⟩

theorem runEach (later : Later facts g e) (runs : runEach found e = (.ok (), e')) :
    Later facts g e' := by
  induction found generalizing e with
  | nil =>
    obtain rfl := (Prod.mk.inj runs).2
    exact later
  | cons m rest ih =>
    obtain ⟨e₁, first, rest⟩ := runEach_cons_iff.mp runs
    have counted : Later facts g (e.countMatched 1) := ⟨later.facts, later.grows⟩
    have after := counted.runMatch m
    rw [first] at after
    exact ih after rest

/-- A neighbour is entered under the same key: the facts are the same, and nodes keep their
types. -/
theorem stepKey_eq (later : Later facts g e) {key : Key} {v : Vertex} {p : Position}
    (enters : Enters facts g key v p) : stepKey e.facts e.graph p v = .ok key := by
  rw [stepKey_eq_ok_iff, later.facts]
  cases enters with
  | relation found same => exact .relation found same
  | type live same => exact .type (later.grows.extends_.nodes _ _ live) same

end Later

/-! ### Every visit has the effects of the listed walks -/

section Visits

variable (facts : FactBase) (g : Graph)

/-- A visit has the effects of the walks, one after the other, and returns to where it began. -/
def Performs (visit : LiveVisit Custom) (walks : Walks RuleGenerator Factor) : Prop :=
  ∀ (current : Vertex) (trace : Trace) (e e' : Engine Custom), trace.stack.head? = some current →
    trace.Recorded → Later facts g e →
    runEach ((walks trace.stand).map (reported trace)) e = (.ok (), e') →
    visit current ⟨trace, e⟩ = (.ok (), ⟨trace, e'⟩)

end Visits

variable {facts : FactBase} {g : Graph} {visits : Key → Option (LiveVisit Custom)}
  {branch : Key → Option (Walks RuleGenerator Factor)}

theorem complete_performs {trace : Trace} {actions : Option (Actions RuleGenerator Factor)}
    (runs : runEach ((actions.toList.map fun a => (([] : List Move), a)).map (reported trace)) e =
      (.ok (), e')) : LiveWalk.complete ⟨trace, e⟩ actions = (.ok (), ⟨trace, e'⟩) := by
  cases actions with
  | none =>
    obtain rfl := (Prod.mk.inj runs).2
    rfl
  | some a =>
    obtain ⟨e₁, first, last⟩ := runEach_cons_iff.mp runs
    obtain rfl := (Prod.mk.inj last).2
    have bound : reported trace ([], a) = ⟨a, trace.bindings.reverse⟩ := by simp [reported]
    rw [bound] at first
    simp only [LiveWalk.complete, first]

theorem stepBack_performs {visit : LiveVisit Custom} {walks : Walks RuleGenerator Factor}
    (performs : Performs facts g visit walks) {trace : Trace} (recorded : trace.Recorded)
    (later : Later facts g e)
    (runs : runEach ((walksBack (some walks) trace.stand).map (reported trace)) e = (.ok (), e')) :
    LiveWalk.stepBack ⟨trace, e⟩ visit = (.ok (), ⟨trace, e'⟩) := by
  obtain ⟨stack, crossed, links, bindings⟩ := trace
  match stack with
  | [] | [_] =>
    obtain rfl := (Prod.mk.inj runs).2
    rfl
  | top :: previous :: rest =>
    simp only [walksBack, Trace.stand, reported_back _ (previous :: rest)] at runs
    have visited := performs previous ⟨previous :: rest, crossed, links, bindings⟩ e e' rfl recorded
      later runs
    simp only [LiveWalk.stepBack, visited]

theorem stepTo_performs (children : ∀ key, Option.Rel (Performs facts g) (visits key) (branch key))
    {current : Vertex} {trace : Trace} (recorded : trace.Recorded) {neighbor : Vertex × Position}
    (enterable : ∃ key, ScoredChaining.Enters facts g key neighbor.1 neighbor.2)
    (later : Later facts g e)
    (runs : runEach ((walksOver facts g branch current trace.stand neighbor).map (reported trace))
      e = (.ok (), e')) :
    LiveWalk.stepTo visits current ⟨trace, e⟩ neighbor = (.ok (), ⟨trace, e'⟩) := by
  obtain ⟨target, p⟩ := neighbor
  obtain ⟨key, enters⟩ := enterable
  have known := stepKey_eq_ok_iff.mpr enters
  have isCrossed := recorded.isCrossed_iff ⟨current, target, p⟩
  by_cases crossed : ⟨current, target, p⟩ ∈ trace.links
  · simp only [walksOver, Trace.stand, crossed, if_true] at runs
    obtain rfl := (Prod.mk.inj runs).2
    simp [LiveWalk.stepTo, isCrossed.mpr crossed]
  · have new : trace.isCrossed ⟨current, target, p⟩ = false := by simpa [crossed] using isCrossed
    simp only [walksOver, Trace.stand, crossed, if_false, known] at runs
    simp only [LiveWalk.stepTo, new, Bool.false_eq_true, if_false, later.stepKey_eq enters]
    obtain ⟨visited, listed⟩ | ⟨visit, walks, visited, listed, performs⟩ := rel_cases (children key)
    · rw [listed] at runs
      obtain rfl := (Prod.mk.inj runs).2
      rw [visited]
    · simp only [listed, reported_cross] at runs
      have visitEq := performs target _ e e' rfl (recorded.cross key _) later runs
      simp only [visited, LiveWalk.stepOver, Trace.cross?, new, Bool.false_eq_true, if_false,
        visitEq, Trace.uncross_cross new]

theorem stepToEach_performs
    (children : ∀ key, Option.Rel (Performs facts g) (visits key) (branch key)) (current : Vertex)
    {trace : Trace} (recorded : trace.Recorded) {neighbors : List (Vertex × Position)}
    (enterable : ∀ n ∈ neighbors, ∃ key, ScoredChaining.Enters facts g key n.1 n.2)
    (later : Later facts g e)
    (runs : runEach ((neighbors.flatMap (walksOver facts g branch current trace.stand)).map
      (reported trace)) e = (.ok (), e')) :
    LiveWalk.stepToEach visits current neighbors ⟨trace, e⟩ = (.ok (), ⟨trace, e'⟩) := by
  induction neighbors generalizing e with
  | nil =>
    obtain rfl := (Prod.mk.inj runs).2
    rfl
  | cons n rest ih =>
    obtain ⟨enterableFirst, enterableRest⟩ := List.forall_mem_cons.mp enterable
    rw [List.flatMap_cons, List.map_append, runEach_append_iff] at runs
    obtain ⟨e₁, first, others⟩ := runs
    rw [LiveWalk.stepToEach, stepTo_performs children recorded enterableFirst later first]
    exact ih enterableRest (later.runEach first) others

theorem visitNodeLive_performs (enterable : Enterable facts g)
    (children : ∀ key, Option.Rel (Performs facts g) (visits key) (branch key))
    {actions : Option (Actions RuleGenerator Factor)} {isLeaf : Bool}
    (leaf : isLeaf = true → ∀ key, branch key = none) :
    Performs facts g (visitNodeLive actions isLeaf visits) (walksAt facts g actions branch) := by
  rintro current ⟨stack, crossed, links, bindings⟩ e e' top recorded later runs
  obtain ⟨earlier, shape⟩ := List.head?_eq_some_iff.mp top
  simp only at shape
  subst shape
  -- The walks of the list: the one that ends here, those that go back, and those over neighbours.
  rw [walksAt, List.map_append, List.map_append, runEach_append_iff] at runs
  obtain ⟨e₁, ends, runs⟩ := runs
  obtain ⟨e₂, back, across⟩ := runEach_append_iff.mp runs
  have later₁ := later.runEach ends
  have later₂ := later₁.runEach back
  simp only [visitNodeLive, complete_performs ends]
  cases isLeaf with
  | true =>
    have noSteps : ∀ s,
        (facts.neighbors current).flatMap (walksOver facts g branch current s) = [] := by
      intro s
      simp [walksOver_eq_nil (leaf rfl)]
    rw [leaf rfl] at back
    obtain rfl := (Prod.mk.inj back).2
    simp only [Trace.stand, noSteps, List.map_nil] at across
    obtain rfl := (Prod.mk.inj across).2
    rfl
  | false =>
    have overEq := stepToEach_performs children current recorded
      (fun n mem => enterable current n.1 n.2 mem) later₂ across
    simp only [Bool.false_eq_true, if_false]
    obtain ⟨visited, listed⟩ | ⟨visit, walks, visited, listed, performs⟩ :=
      rel_cases (children .parent)
    · rw [listed] at back
      obtain rfl := (Prod.mk.inj back).2
      simp only [visited, later₂.facts, overEq]
    · rw [listed] at back
      simp only [visited, stepBack_performs performs recorded later₁ back, later₂.facts, overEq]

end Engine

mutual

theorem Trie.visitLive_performs {facts : FactBase} {g : Graph} (enterable : Enterable facts g)
    (t : Trie RuleGenerator Factor) :
    Engine.Performs facts g (t.visitLive : Engine.LiveVisit Custom) (t.walks facts g) := by
  match t with
  | .node actions branches =>
    rw [Trie.visitLive, Trie.walks]
    refine Engine.visitNodeLive_performs enterable
      (Branches.visitLive_performs enterable branches) ?_
    intro leaf key
    cases branches with
    | nil => rw [Branches.walks?]
    | cons _ _ _ => simp [Branches.isEmpty] at leaf

theorem Branches.visitLive_performs {facts : FactBase} {g : Graph} (enterable : Enterable facts g)
    (branches : Branches RuleGenerator Factor) (key : Key) : Option.Rel (Engine.Performs facts g)
      (branches.visitLive? key : Option (Engine.LiveVisit Custom))
      (branches.walks? facts g key) := by
  match branches with
  | .nil =>
    rw [Branches.visitLive?, Branches.walks?]
    exact .none
  | .cons k child rest =>
    rw [Branches.visitLive?, Branches.walks?]
    split
    · exact .some (Trie.visitLive_performs enterable child)
    · exact Branches.visitLive_performs enterable rest key

end

namespace Engine

variable {e e' : Engine Custom} {id : EdgeId} {edge : Edge}

/-! ### Both orders have the same effects -/

/-- Firing a committed fact succeeds in both orders, with the same effects. -/
theorem Coherent.fireInline_eq (coherent : e.Coherent) (committed : e.facts.edge? id = some edge) :
    e.fireInline id = e.fire id ∧ (e.fire id).1 = .ok () := by
  obtain ⟨stats, matched⟩ := coherent.matchEdge_eq e.trie committed
  generalize isFound : (e.trie.walks e.facts e.graph (.start (.node edge.head))).map
    (fun walk => (⟨walk.2, bindingsOf walk.1⟩ : Match RuleGenerator Factor)) = found at matched
  have fires : e.fire id = runMatches found (e.countMatched found.length) := by
    rw [fire, matched]
    rfl
  have counted : (e.countMatched found.length).Coherent :=
    coherent.of_frame ⟨.refl coherent.graph, rfl⟩ coherent.agenda coherent.pending
  have fed : ∀ m ∈ found, ∀ r ∈ m.actions.generators, r.Fed e.graph m.bindings := by
    rw [← isFound]
    rintro _ mem r memR
    obtain ⟨walk, listed, rfl⟩ := List.mem_map.mp mem
    exact coherent.fed listed memR
  have ok := (runMatches_effects id counted fed).1.ok
  rw [fires]
  refine ⟨?_, ok⟩
  generalize answer : runMatches found (e.countMatched found.length) = result at ok ⊢
  obtain ⟨result, e'⟩ := result
  obtain rfl : result = .ok () := ok
  have each := runEach_of_runMatches answer
  rw [← isFound] at each
  have visited := e.trie.visitLive_performs coherent.enterable (.node edge.head)
    (.start (.node edge.head)) e e' rfl (Trace.recorded_start _) (.refl coherent.graph) each
  simp only [fireInline, committed, visited]

/-- The effects of a pattern that is completed may as well be had while the others are still looked
for: the engine is the same, and so is the answer. -/
theorem Reachable.inline_eq (reachable : Reachable e) :
    (∀ id, e.fireInline id = e.fire id) ∧
      (∀ id edge, e.facts.edge? id = some edge → (e.fire id).1 = .ok ()) ∧
      ∀ id, e.commitInline id = e.commit id := by
  have coherent := reachable.coherent
  refine ⟨fun id => ?_, fun id edge committed => (coherent.fireInline_eq committed).2, fun id => ?_⟩
  · cases committed : e.facts.edge? id with
    | some edge => exact (coherent.fireInline_eq committed).1
    | none => simp [fireInline, fire, Trie.matchEdge, committed]
  · rw [commitInline, commit, commitWith]
    cases live : e.graph.edge id with
    | error failure => rfl
    | ok edge =>
      have live := Graph.edge_eq_ok_iff.mp live
      cases new : e.facts.contains id with
      | true => simp only [record_of_contains new]
      | false =>
        have recorded : (e.record id edge).2.Coherent := coherent.record live
        simp only [record_of_new new] at recorded ⊢
        have committed : (e.facts.add id edge).2.edge? id = some edge := by
          rw [FactBase.edge?_add new, if_pos rfl]
        rw [(recorded.fireInline_eq committed).1]
        rfl

/-- The engine with a link from 1 to 2, in which a link takes pending ones with the same source off
the agenda. The link from 2 to 3 is pending, and there is one from 2 to 1. -/
def pruning : Engine :=
  (chained.addFactor ⟨0⟩ (.exclusion [0])).performAll
    [.makeEdgeFromValues ⟨0⟩ [.int 2, .int 1] .temporary,
      .addCandidate ⟨.temporary, 1⟩ (.constant 1.0)]

theorem reachable_pruning : Reachable pruning :=
  (reachable_chained.next (.addFactor ⟨0⟩ (.exclusion [0]))).performAll _

/-- Three patterns are completed: the first takes the pending link off the agenda, and each of the
others proposes a path. -/
theorem inline_eq_pruning : Reachable pruning ∧
    pruning.commitInline ⟨.temporary, 2⟩ = pruning.commit ⟨.temporary, 2⟩ ∧
    pruning.agenda.pending = [⟨.temporary, 1⟩] ∧
    (pruning.commitInline ⟨.temporary, 2⟩).1 = .ok true ∧
    (pruning.commitInline ⟨.temporary, 2⟩).2.agenda.pending = [⟨.temporary, 3⟩, ⟨.temporary, 4⟩] ∧
    (pruning.commitInline ⟨.temporary, 2⟩).2.stats.matched = 3 ∧
    pruning.facts.edge? ⟨.temporary, 0⟩ =
      some ⟨⟨0⟩, ⟨.temporary, 2⟩, [⟨.temporary, 0⟩, ⟨.temporary, 1⟩]⟩ ∧
    pruning.fireInline ⟨.temporary, 0⟩ = pruning.fire ⟨.temporary, 0⟩ ∧
    (pruning.fire ⟨.temporary, 0⟩).1 = .ok () := by
  have committed : pruning.facts.edge? ⟨.temporary, 0⟩ =
      some ⟨⟨0⟩, ⟨.temporary, 2⟩, [⟨.temporary, 0⟩, ⟨.temporary, 1⟩]⟩ := by decide +kernel
  obtain ⟨fires, succeeds, commits⟩ := Reachable.inline_eq reachable_pruning
  exact ⟨reachable_pruning, commits _, by decide +kernel, by decide +kernel, by decide +kernel,
    by decide +kernel, committed, fires _, succeeds _ _ committed⟩

end Engine

end ScoredChaining
