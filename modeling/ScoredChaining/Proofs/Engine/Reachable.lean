import ScoredChaining.Engine.Load
import ScoredChaining.Proofs.Engine.Firings
import ScoredChaining.Proofs.Engine.Runs

/-!
The engines that operations lead to.

* `Operation`: what can be done to an engine, with any arguments, whether it succeeds or fails.
* `Engine.Reachable`: the engines that operations make of a new one.
* `Engine.Reachable.coherent`: they are coherent.
* `Engine.Reachable.load`, `Engine.Reachable.run` and so on: what is done with several operations
  leads to no other engines.
-/

namespace ScoredChaining

/-- An operation on an engine. -/
inductive Operation (Custom : Type := Empty) where
  | internType (name : String)
  | declare (name : String) (types : List String)
  | internNode (type : TypeId) (value : Value) (partition : Partition)
  | lookupNode (type : TypeId) (value : Value) (create : Bool)
  | makeEdge (relation : RelationId) (tail : List NodeId) (partition : Partition)
  | makeEdgeFromValues (relation : RelationId) (values : List Value) (partition : Partition)
  | addRule (rule : Rule) (scorer : Scorer)
  | addFactor (relation : RelationId) (factor : Factor)
  | setFallback (policy : Policy Custom)
  | addPolicy (relation : RelationId) (policy : Policy Custom)
  | addCandidate (id : EdgeId) (score : Score)
  | commit (id : EdgeId) (matching : Bool)
  | step (mode : Mode)
  | setPriority (priority : Priority)
  | addGold (id : EdgeId)
  | clearAgenda
  | clearDocument

variable {Custom : Type} [Decider Custom]

/-- The engine after an operation, which may have failed. -/
def Operation.perform (e : Engine Custom) : Operation Custom → Engine Custom
  | .internType name => (e.internType name).2
  | .declare name types => (e.declare name types).2
  | .internNode type value partition =>
    { e with graph := (e.graph.internNode type value partition).2 }
  | .lookupNode type value create => (e.lookupNode type value create).2
  | .makeEdge relation tail partition => (e.makeEdge relation tail partition).2
  | .makeEdgeFromValues relation values partition =>
    (e.makeEdgeFromValues relation values partition).2
  | .addRule rule scorer => (e.addRule rule scorer).2
  | .addFactor relation factor => e.addFactor relation factor
  | .setFallback policy => e.setFallback policy
  | .addPolicy relation policy => e.addPolicy relation policy
  | .addCandidate id score => (e.addCandidate id score).2
  | .commit id matching => (e.commitWith id matching).2
  | .step mode => (e.step mode).2
  | .setPriority priority => (e.setPriority priority).2
  | .addGold id => (e.addGold id).2
  | .clearAgenda => e.clearAgenda
  | .clearDocument => e.clearDocument

namespace Engine

/-- The engines that operations make of a new one. -/
inductive Reachable : Engine Custom → Prop where
  | start (settings : Settings) (priority : Priority) : Reachable (.withPriority settings priority)
  | next {e : Engine Custom} : Reachable e → (op : Operation Custom) → Reachable (op.perform e)

variable {e e' : Engine Custom}

/-! ### What keeps an engine coherent -/

/-- Effects that leave the graph, the facts and the patterns alone, make nothing pending and ask no
generators. -/
structure Settles (e e' : Engine Custom) : Prop where
  graph : e'.graph = e.graph
  facts : e'.facts = e.facts
  trie : e'.trie = e.trie
  rules : e'.rules = e.rules
  linked : e'.agenda.Linked
  pending : ∀ id ∈ e'.agenda.pending, id ∈ e.agenda.pending
  firings : e'.stats.firings = e.stats.firings

theorem Settles.refl (linked : e.agenda.Linked) : Settles e e :=
  ⟨rfl, rfl, rfl, rfl, linked, fun _ mem => mem, rfl⟩

theorem Coherent.of_settles (coherent : e.Coherent) (settles : Settles e e') : e'.Coherent where
  graph := settles.graph ▸ coherent.graph
  facts := settles.facts ▸ coherent.facts
  committed id edge found := by
    rw [settles.facts] at found
    rw [settles.graph]
    exact coherent.committed id edge found
  agenda := settles.linked
  pending id mem := by
    rw [settles.graph]
    exact coherent.pending id (settles.pending id mem)
  trie := settles.trie ▸ coherent.trie
  attached := by
    rw [settles.trie, settles.rules]
    exact coherent.attached
  placed := by
    rw [settles.trie, settles.rules]
    exact coherent.placed
  typed rule mem := by
    rw [settles.graph]
    exact coherent.typed rule (settles.rules ▸ mem)

/-- A coherent engine stays coherent when its graph grows. -/
theorem Coherent.withGraph (coherent : e.Coherent) {g : Graph} (wf : g.WellFormed)
    (extends_ : e.graph.Extends g) : Coherent { e with graph := g } where
  graph := wf
  facts := coherent.facts
  committed id edge found := extends_.edges _ _ (coherent.committed id edge found)
  agenda := coherent.agenda
  pending id mem := by
    obtain ⟨edge, live⟩ := coherent.pending id mem
    exact ⟨edge, extends_.edges _ _ live⟩
  trie := coherent.trie
  attached := coherent.attached
  placed := coherent.placed
  typed rule mem := (coherent.typed rule mem).mono extends_.schema

theorem Coherent.withSchema (coherent : e.Coherent) {s : Schema} (wf : s.WellFormed)
    (extends_ : e.graph.schema.Extends s) :
    Coherent { e with graph := { e.graph with schema := s } } :=
  have grown := coherent.graph.withSchema wf extends_
  coherent.withGraph grown.1 grown.2

/-! ### Rules and factors -/

theorem sorted_attach {rule : CompiledRule} {scorer : Scorer} {t : Trie RuleGenerator Factor}
    (sorted : t.Sorted) : (attach rule scorer t).Sorted := by
  unfold attach
  induction rule.paths generalizing t with
  | nil => exact sorted
  | cons path rest ih => exact ih (sorted.addGenerator _ _)

/-- A rule is attached after what is there, once for each of its paths. -/
theorem generatorsAt_attach {rule : CompiledRule} {scorer : Scorer} {t : Trie RuleGenerator Factor}
    (sorted : t.Sorted) (keys : List Key) : (attach rule scorer t).generatorsAt keys =
      t.generatorsAt keys ++
        (rule.paths.filter (·.keys = keys)).map fun path => ⟨rule, path, scorer⟩ := by
  unfold attach
  induction rule.paths generalizing t with
  | nil => simp
  | cons path rest ih =>
    rw [List.foldl_cons, ih (sorted.addGenerator _ _), Trie.generatorsAt_addGenerator sorted,
      List.filter_cons]
    by_cases same : path.keys = keys
    · simp [same]
    · simp [same, Ne.symm same]

/-- Attaching a rule brings no factors. -/
theorem factorsAt_attach {rule : CompiledRule} {scorer : Scorer} {t : Trie RuleGenerator Factor}
    (sorted : t.Sorted) (keys : List Key) :
    (attach rule scorer t).factorsAt keys = t.factorsAt keys := by
  unfold attach
  induction rule.paths generalizing t with
  | nil => rfl
  | cons path rest ih =>
    rw [List.foldl_cons, ih (sorted.addGenerator _ _), Trie.factorsAt_addGenerator sorted]

theorem Coherent.addRule (coherent : e.Coherent) (rule : Rule) (scorer : Scorer) :
    (e.addRule rule scorer).2.Coherent := by
  obtain ⟨extends_, wellFormed⟩ := rule.compile_schema e.graph.schema
  have typed := @Rule.compile_typed rule e.graph.schema
  have grown := coherent.withSchema (wellFormed coherent.graph.schema) extends_
  unfold Engine.addRule
  generalize rule.compile e.graph.schema = answer at typed grown ⊢
  obtain ⟨result, s⟩ := answer
  cases result with
  | error failure => exact grown
  | ok compiled =>
    refine ⟨grown.graph, grown.facts, grown.committed, grown.agenda, grown.pending,
      sorted_attach grown.trie, fun keys r mem => ?_, fun other mem path isPath => ?_,
      fun other mem => ?_⟩
    · rw [generatorsAt_attach grown.trie] at mem
      rcases List.mem_append.mp mem with old | new
      · obtain ⟨isRule, isPath, along⟩ := grown.attached keys r old
        exact ⟨List.mem_append_left _ isRule, isPath, along⟩
      · obtain ⟨path, isPath, rfl⟩ := List.mem_map.mp new
        obtain ⟨isPath, along⟩ := List.mem_filter.mp isPath
        exact ⟨List.mem_append_right _ (List.mem_singleton_self _), isPath, of_decide_eq_true along⟩
    · rw [generatorsAt_attach grown.trie]
      rcases List.mem_append.mp mem with old | new
      · obtain ⟨other, held⟩ := grown.placed _ old path isPath
        exact ⟨other, List.mem_append_left _ held⟩
      · obtain rfl := List.mem_singleton.mp new
        exact ⟨scorer, List.mem_append_right _ (List.mem_map_of_mem
          (List.mem_filter.mpr ⟨isPath, decide_eq_true rfl⟩))⟩
    · rcases List.mem_append.mp mem with old | new
      · exact grown.typed other old
      · obtain rfl := List.mem_singleton.mp new
        exact (typed rfl).2

theorem Coherent.addFactor (coherent : e.Coherent) (relation : RelationId) (factor : Factor) :
    (e.addFactor relation factor).Coherent := by
  have same := fun path =>
    Trie.generatorsAt_addFactor coherent.trie [.relation relation .head] path factor
  refine ⟨coherent.graph, coherent.facts, coherent.committed, coherent.agenda, coherent.pending,
    coherent.trie.addFactor _ _, fun path r mem => coherent.attached path r ?_,
    fun rule mem path isPath => ?_, coherent.typed⟩
  · rwa [Engine.addFactor, same] at mem
  · rw [Engine.addFactor, same]
    exact coherent.placed rule mem path isPath

/-! ### Commits -/

theorem Coherent.commitWith (coherent : e.Coherent) (id : EdgeId) (matching : Bool) :
    (e.commitWith id matching).2.Coherent := by
  cases live : e.graph.edges.get? id with
  | none => rwa [(commitWith_of_dead live matching).1]
  | some edge =>
    cases known : e.facts.contains id with
    | true => rwa [(commitWith_of_contains live known matching).1]
    | false =>
      cases matching with
      | true => exact (coherent.commit_effects live known).2.1.coherent
      | false =>
        rw [(commitWith_quietly live known).1]
        exact coherent.record live

/-- A fact that is not live does not become a candidate. -/
theorem addCandidate_of_dead (linked : e.agenda.Linked) {id : EdgeId}
    (dead : e.graph.edges.get? id = none) (score : Score) :
    Settles e (e.addCandidate id score).2 := by
  unfold addCandidate
  split
  · exact ⟨rfl, rfl, rfl, rfl, linked, fun _ mem => mem, rfl⟩
  · simp only [Graph.edge, dead]
    exact .refl linked

theorem Coherent.addCandidate (coherent : e.Coherent) (id : EdgeId) (score : Score) :
    (e.addCandidate id score).2.Coherent := by
  cases live : e.graph.edges.get? id with
  | none => exact coherent.of_settles (addCandidate_of_dead coherent.agenda live score)
  | some edge =>
    obtain ⟨_, _, proposes⟩ := addCandidate_spec coherent.agenda live score
    have graph : (e.addCandidate id score).2.graph = e.graph := by rw [proposes.others]
    have grows : Graph.Grows e.graph (e.addCandidate id score).2.graph := by
      rw [graph]
      exact .refl coherent.graph
    refine coherent.of_frame ⟨grows, by rw [proposes.others]⟩ proposes.linked
      fun d mem => ?_
    rw [graph]
    obtain ⟨x, memX, rfl⟩ := List.mem_map.mp mem
    rcases proposes.new x memX with old | ⟨p, memP, same, _⟩
    · exact coherent.pending _ (mem_pending_of_mem old)
    · obtain rfl := List.mem_singleton.mp memP
      exact ⟨edge, same ▸ live⟩

/-! ### Steps -/

/-- What is decided about a fact that the policies have been asked about. -/
def decided (e : Engine Custom) (mode : Mode) (edge : Edge) (predicted : Option Bool) :
    Option Bool :=
  match mode with
  | .decoder => predicted
  | .oracle => some (e.labels.label edge = .gold)

/-- The fact that a step accepts, if there is one, and the engine that is to commit it: the fact has
come off the agenda, and the policies have been asked. -/
def accepted? (e : Engine Custom) (mode : Mode) : Option (EdgeId × Engine Custom) :=
  match e.agenda.pop with
  | (.error _, _) => none
  | (.ok c, agenda) =>
    match e.graph.edge c.edge with
    | .error _ => none
    | .ok edge =>
      match e.decisions.decide edge c.score.read.1 with
      | (.error _, _) => none
      | (.ok predicted, decisions) =>
        if e.decided mode edge predicted = some true then
          some (c.edge,
            { e with agenda, decisions, stats := { e.stats with pops := e.stats.pops + 1 } })
        else none

/-- Taking a candidate off the agenda leaves the other candidates. -/
theorem pop_pending (linked : e.agenda.Linked) : e.agenda.pop.2.Linked ∧
    (∀ id ∈ e.agenda.pop.2.pending, id ∈ e.agenda.pending) ∧
    ∀ c, e.agenda.pop.1 = .ok c → c.edge ∈ e.agenda.pending := by
  cases empty : e.agenda.isEmpty with
  | true =>
    have none : e.agenda.heap[0]? = none := by
      simp only [Agenda.isEmpty, Array.isEmpty_iff] at empty
      simp [empty]
    simp [Agenda.pop, none, linked]
  | false =>
    obtain ⟨x, _, ok, linked', perm⟩ := linked.pop empty
    have edges := perm.map Entry.edge
    refine ⟨linked', fun id mem => edges.mem_iff.mpr (List.mem_cons_of_mem _ mem), ?_⟩
    intro c same
    obtain rfl := Except.ok.inj (ok.symm.trans same)
    exact edges.mem_iff.mpr List.mem_cons_self

/-- What was decided is done: an accepted fact is committed, and another one is only counted. -/
theorem conclude_cases (e : Engine Custom) (id : EdgeId) (answer : Option Bool) :
    let e' := if answer = some true then (e.commit id).2 else e
    ∃ stats, (e.conclude id answer).2 = { e' with stats } ∧ stats.firings = e'.stats.firings := by
  match answer with
  | none => exact ⟨_, rfl, rfl⟩
  | some false => exact ⟨_, rfl, rfl⟩
  | some true =>
    rw [conclude]
    generalize e.commit id = committed
    obtain ⟨_ | _ | _, e'⟩ := committed <;> exact ⟨_, rfl, rfl⟩

theorem snd_consider (e : Engine Custom) (mode : Mode) (c : Candidate) : (e.consider mode c).2 =
    match e.graph.edge c.edge with
    | .error _ => e
    | .ok edge =>
      match e.decisions.decide edge c.score.read.1 with
      | (.error _, decisions) => { e with decisions }
      | (.ok predicted, decisions) =>
        ({ e with decisions }.conclude c.edge (e.decided mode edge predicted)).2 := by
  rw [consider]
  cases e.graph.edge c.edge with
  | error failure => rfl
  | ok edge =>
    simp only
    generalize e.decisions.decide edge c.score.read.1 = answer
    obtain ⟨_ | predicted, decisions⟩ := answer
    · rfl
    · cases mode <;> simp only [decided] <;>
        generalize conclude (_ : Engine Custom) c.edge _ = concluded <;>
        obtain ⟨_ | _, e'⟩ := concluded <;> rfl

/-- A step commits the fact that it accepts; one that accepts none changes no facts. -/
theorem step_cases (linked : e.agenda.Linked) (mode : Mode) :
    (e.accepted? mode = none ∧ Settles e (e.step mode).2) ∨
      ∃ id e₁ stats, e.accepted? mode = some (id, e₁) ∧ Settles e e₁ ∧ id ∈ e.agenda.pending ∧
        (e.step mode).2 = { (e₁.commit id).2 with stats } ∧
        stats.firings = (e₁.commit id).2.stats.firings := by
  obtain ⟨linked', subset, mem⟩ := pop_pending linked
  have settles : ∀ decisions stats, stats.firings = e.stats.firings →
      Settles e { e with agenda := e.agenda.pop.2, decisions, stats } := fun _ _ counted =>
    ⟨rfl, rfl, rfl, rfl, linked', subset, counted⟩
  unfold accepted? Engine.step
  generalize e.agenda.pop = answer at linked' subset mem settles ⊢
  obtain ⟨popped, agenda⟩ := answer
  cases popped with
  | error failure => exact .inl ⟨rfl, settles e.decisions e.stats rfl⟩
  | ok c =>
    simp only [snd_consider]
    cases live : e.graph.edge c.edge with
    | error failure => exact .inl ⟨rfl, settles e.decisions _ rfl⟩
    | ok edge =>
      simp only
      generalize e.decisions.decide edge c.score.read.1 = answer
      obtain ⟨predicted, decisions⟩ := answer
      cases predicted with
      | error failure => exact .inl ⟨rfl, settles decisions _ rfl⟩
      | ok predicted =>
        let asked : Engine Custom :=
          { e with agenda, decisions, stats := { e.stats with pops := e.stats.pops + 1 } }
        obtain ⟨stats, same, counted⟩ := asked.conclude_cases c.edge (e.decided mode edge predicted)
        by_cases yes : e.decided mode edge predicted = some true
        · rw [if_pos yes] at same counted
          exact .inr ⟨c.edge, asked, stats, if_pos yes, settles decisions _ rfl, mem c rfl, same,
            counted⟩
        · rw [if_neg yes] at same counted
          refine .inl ⟨if_neg yes, ?_⟩
          change Settles e (asked.conclude c.edge (e.decided mode edge predicted)).2
          rw [same]
          exact settles decisions stats counted

theorem Coherent.step (coherent : e.Coherent) (mode : Mode) : (e.step mode).2.Coherent := by
  rcases step_cases coherent.agenda mode with
    ⟨_, settles⟩ | ⟨id, e₁, stats, _, settles, _, same, counted⟩
  · exact coherent.of_settles settles
  · rw [same]
    have committed := (coherent.of_settles settles).commitWith id true
    exact committed.of_settles ⟨rfl, rfl, rfl, rfl, committed.agenda, fun _ mem => mem, counted⟩

/-! ### The other operations -/

theorem reprioritize_settles (linked : e.agenda.Linked) {ids : List EdgeId}
    (pending : ∀ id ∈ ids, id ∈ e.agenda.pending) : Settles e (e.reprioritize ids).2 := by
  induction ids generalizing e with
  | nil => exact .refl linked
  | cons id rest ih =>
    obtain ⟨pendingFirst, pendingRest⟩ := List.forall_mem_cons.mp pending
    rw [reprioritize]
    split
    · exact .refl linked
    · rename_i edge _
      obtain ⟨x, _, _, ok, linked', perm⟩ := linked.updateScore pendingFirst
        (fun score => (score, e.priority.of e.graph edge score))
      have edges := Agenda.pending_updated _ perm
      generalize e.agenda.updateScore id (fun score => (score, e.priority.of e.graph edge score)) =
        answer at ok linked' edges
      obtain ⟨result, agenda⟩ := answer
      obtain rfl : result = .ok x.score := ok
      have settles := ih (e := { e with agenda }) linked' fun d mem =>
        edges.mem_iff.mpr (pendingRest d mem)
      exact ⟨settles.graph, settles.facts, settles.trie, settles.rules, settles.linked,
        fun d mem => edges.mem_iff.mp (settles.pending d mem), settles.firings⟩

theorem setPriority_settles (linked : e.agenda.Linked) (priority : Priority) :
    Settles e (e.setPriority priority).2 := by
  have settles := reprioritize_settles (e := { e with priority }) linked fun _ mem => mem
  exact ⟨settles.graph, settles.facts, settles.trie, settles.rules, settles.linked, settles.pending,
    settles.firings⟩

theorem addGold_settles (linked : e.agenda.Linked) (id : EdgeId) : Settles e (e.addGold id).2 := by
  unfold addGold
  split
  · exact .refl linked
  · exact ⟨rfl, rfl, rfl, rfl, linked, fun _ mem => mem, rfl⟩

theorem clearAgenda_settles (e : Engine Custom) : Settles e e.clearAgenda :=
  ⟨rfl, rfl, rfl, rfl, .empty, by simp [clearAgenda, Agenda.clear, Agenda.pending, Agenda.toList,
    Agenda.empty], rfl⟩

/-- Forgetting a document keeps the schema facts, which only touch schema nodes. -/
theorem Coherent.clearDocument (coherent : e.Coherent) : e.clearDocument.Coherent where
  graph := coherent.graph.clearTemporary
  facts := coherent.facts.clearTemporary fun id edge found isSchema =>
    coherent.graph.lasting (coherent.committed id edge found) isSchema
  committed id edge found := by
    obtain ⟨found, isSchema⟩ := (FactBase.edge?_clearTemporary coherent.facts).mp found
    exact EdgeStore.get?_clearTemporary.mpr ⟨coherent.committed id edge found, isSchema⟩
  agenda := .empty
  pending := by
    simp [Engine.clearDocument, clearAgenda, Agenda.clear, Agenda.pending, Agenda.toList,
      Agenda.empty]
  trie := coherent.trie
  attached := coherent.attached
  placed := coherent.placed
  typed := coherent.typed

/-- Every operation leaves a coherent engine coherent. -/
theorem Coherent.perform (coherent : e.Coherent) (op : Operation Custom) :
    (op.perform e).Coherent := by
  have wf := coherent.graph
  cases op with
  | internType name =>
    exact coherent.withSchema (wf.schema.internType name) (Schema.internType_extends _ name)
  | declare name types =>
    exact coherent.withSchema (wf.schema.declareByNames name types)
      (Schema.declareByNames_extends _ name types)
  | internNode type value partition =>
    have grows := (Graph.internNode_spec wf type value partition).1
    exact coherent.withGraph grows.wellFormed grows.extends_
  | lookupNode type value create =>
    have grows := Graph.lookupNode_grows wf type value create .temporary
    exact coherent.withGraph grows.wellFormed grows.extends_
  | makeEdge relation tail partition =>
    have grows := (Graph.makeEdge_spec wf relation tail partition).1
    exact coherent.withGraph grows.wellFormed grows.extends_
  | makeEdgeFromValues relation values partition =>
    have grows := (Graph.makeEdgeFromValues_spec wf relation values partition).1
    exact coherent.withGraph grows.wellFormed grows.extends_
  | addRule rule scorer => exact coherent.addRule rule scorer
  | addFactor relation factor => exact coherent.addFactor relation factor
  | setFallback policy =>
    exact coherent.of_settles ⟨rfl, rfl, rfl, rfl, coherent.agenda, fun _ mem => mem, rfl⟩
  | addPolicy relation policy =>
    exact coherent.of_settles ⟨rfl, rfl, rfl, rfl, coherent.agenda, fun _ mem => mem, rfl⟩
  | addCandidate id score => exact coherent.addCandidate id score
  | commit id matching => exact coherent.commitWith id matching
  | step mode => exact coherent.step mode
  | setPriority priority => exact coherent.of_settles (setPriority_settles coherent.agenda priority)
  | addGold id => exact coherent.of_settles (addGold_settles coherent.agenda id)
  | clearAgenda => exact coherent.of_settles (clearAgenda_settles e)
  | clearDocument => exact coherent.clearDocument

/-- Every engine that operations make of a new one is coherent. -/
theorem Reachable.coherent (reachable : Reachable e) : e.Coherent := by
  induction reachable with
  | start settings priority => exact .withPriority settings priority
  | next _ op ih => exact ih.perform op

/-! ### Several operations in a row -/

theorem Reachable.readRule (reachable : Reachable e) (text : String) (scorer : Scorer) :
    Reachable (e.readRule text scorer).2 := by
  rw [Engine.readRule]
  split
  · exact reachable
  · rename_i rule _
    exact reachable.next (.addRule rule scorer)

theorem Reachable.addRules (reachable : Reachable e) (rules : List Rule) :
    Reachable (e.addRules rules).2 := by
  induction rules generalizing e with
  | nil => exact reachable
  | cons rule rest ih =>
    have added : Reachable (e.addRule rule e.scorer).2 := reachable.next (.addRule rule e.scorer)
    rw [Engine.addRules]
    generalize e.addRule rule e.scorer = answer at added
    obtain ⟨_ | compiled, e₁⟩ := answer
    · exact added
    · have others := ih added
      simp only
      generalize e₁.addRules rest = answer at others ⊢
      obtain ⟨_ | _, e₂⟩ := answer <;> exact others

theorem Reachable.addGroups (reachable : Reachable e) (descriptions : List String) :
    Reachable (e.addGroups descriptions).2 := by
  induction descriptions generalizing e with
  | nil => exact reachable
  | cons description rest ih =>
    rw [Engine.addGroups, addGroup]
    cases Group.read description e.graph.schema with
    | error failure => exact reachable
    | ok g => exact ih (reachable.next (.addPolicy g.relation (.group g)))

theorem Reachable.installGroups (reachable : Reachable e) : Reachable e.installGroups.2 :=
  reachable.addGroups _

theorem Reachable.makeFact (reachable : Reachable e) (relation : String) (values : List Value)
    (partition : Partition) : Reachable (e.makeFact relation values partition).2 := by
  rw [Engine.makeFact]
  split
  · exact reachable
  · rename_i r _
    exact reachable.next (.makeEdgeFromValues r values partition)

theorem Reachable.commitFact (reachable : Reachable e) (relation : String) (values : List Value)
    (partition : Partition) (matching : Bool) :
    Reachable (e.commitFact relation values partition matching).2 := by
  have made := reachable.makeFact relation values partition
  rw [Engine.commitFact]
  generalize e.makeFact relation values partition = answer at made
  obtain ⟨_ | id, e₁⟩ := answer
  · exact made
  · exact made.next (.commit id matching)

theorem Reachable.loadLine (reachable : Reachable e) (line : FactLine) :
    Reachable (e.loadLine line).2 := by
  cases line with
  | declaration relation types => exact reachable.next (.declare relation types)
  | schemaFact relation values => exact reachable.commitFact relation values .schema false
  | fact relation values =>
    exact reachable.commitFact relation values .temporary (!e.settings.noMatchOnLoad)
  | label relation values =>
    have made := reachable.makeFact relation values .temporary
    rw [Engine.loadLine]
    generalize e.makeFact relation values .temporary = answer at made
    obtain ⟨_ | id, e₁⟩ := answer
    · exact made
    · exact made.next (.addGold id)
  | startDocument id =>
    have declared : Reachable e.declareDocuments.2 := by
      rw [declareDocuments]
      split
      · exact reachable
      · exact reachable.next (.declare documentRelation [documentType])
    rw [Engine.loadLine]
    generalize e.declareDocuments = answer at declared
    obtain ⟨_ | _, e₁⟩ := answer
    · exact declared
    · exact declared.commitFact documentRelation [.str id] .temporary true

theorem Reachable.load (reachable : Reachable e) (lines : List FactLine) :
    Reachable (e.load lines).2 := by
  induction lines generalizing e with
  | nil => exact reachable
  | cons line rest ih =>
    have loaded := reachable.loadLine line
    rw [Engine.load]
    generalize e.loadLine line = answer at loaded
    obtain ⟨_ | _, e₁⟩ := answer
    · exact loaded
    · exact ih loaded

theorem Reachable.runWithin (reachable : Reachable e) (mode : Mode) (fuel : Nat)
    (limit : Option Nat) : Reachable (runWithin mode fuel limit e).engine :=
  runWithin_keeps (fun _ reachable => reachable.next (.step mode)) reachable fuel limit

theorem Reachable.run (reachable : Reachable e) (mode : Mode) (fuel : Nat) :
    Reachable (e.run mode fuel).engine :=
  reachable.runWithin mode fuel e.settings.maxPops

end Engine

end ScoredChaining
