import ScoredChaining.Document.Split
import ScoredChaining.Engine.Load
import ScoredChaining.Proofs.Engine.Recording
import ScoredChaining.Proofs.Engine.Steps
import ScoredChaining.Proofs.Graph.Forgetting

/-!
What a document leaves in an engine when it is forgotten: nothing. No policy is of a custom kind
here, since such a policy may keep what it likes when it is cleared.

* `Engine.Rested`: nothing of a document is in the engine.
* `Engine.Atop`: an engine has become another one by the work on a document. Loading lines of
  documents, steps and runs keep this, also when they fail.
* `Engine.Rested.clearDocument_eq`: when the document is forgotten, the engine is the same again.
* `Engine.Rested.load_shared`, `Engine.Rested.addRules`, `Engine.Rested.installGroups`: setting up
  an engine leaves nothing of a document in it.
-/

namespace ScoredChaining

namespace Engine

/-! ### The schema partition -/

section

variable {Custom : Type} [Decider Custom]

theorem graph_addCandidate (e : Engine Custom) (id : EdgeId) (score : Score) :
    (e.addCandidate id score).2.graph = e.graph := by
  unfold addCandidate
  split
  · rfl
  · split
    · rfl
    · split <;> rfl

theorem graph_propose (proposals : List Proposal) (e : Engine Custom) :
    (propose proposals e).2.graph = e.graph := by
  induction proposals generalizing e with
  | nil => rfl
  | cons p rest ih =>
    let counted : Engine Custom :=
      { e with stats := { e.stats with generated := e.stats.generated + 1 } }
    have first : (counted.addCandidate p.edge p.score).2.graph = e.graph :=
      graph_addCandidate counted p.edge p.score
    rw [propose]
    simp only
    generalize counted.addCandidate p.edge p.score = answer at first
    obtain ⟨_ | added, e'⟩ := answer
    · exact first
    · exact (ih e').trans first

theorem runGenerators_keeps (bindings : List Binding) (generators : List RuleGenerator)
    (e : Engine Custom) :
    Graph.Keeps .schema e.graph (runGenerators bindings generators e).2.graph := by
  induction generators generalizing e with
  | nil => exact .refl _ _
  | cons r rest ih =>
    have asked := r.generate_keeps bindings e.graph
    rw [runGenerators]
    simp only
    generalize r.generate bindings e.graph = answer at asked
    obtain ⟨_ | proposals, graph⟩ := answer
    · exact asked
    · let counted : Engine Custom :=
        { e with graph, stats := { e.stats with firings := e.stats.firings + 1 } }
      have proposed : (propose proposals counted).2.graph = graph := graph_propose proposals counted
      simp only
      generalize propose proposals counted = answer at proposed
      obtain ⟨_ | _, e'⟩ := answer
      · exact proposed ▸ asked
      · replace proposed : e'.graph = graph := proposed
        exact asked.trans (proposed ▸ ih e')

theorem graph_runFactors (bindings : List Binding) (factors : List Factor) (e : Engine Custom) :
    (runFactors bindings factors e).2.graph = e.graph := by
  induction factors generalizing e with
  | nil => rfl
  | cons f rest ih =>
    rw [runFactors]
    split
    · rfl
    · exact ih _

theorem runMatch_keeps (m : Match RuleGenerator Factor) (e : Engine Custom) :
    Graph.Keeps .schema e.graph (runMatch m e).2.graph := by
  have asked := runGenerators_keeps m.bindings m.actions.generators e
  rw [runMatch]
  generalize runGenerators m.bindings m.actions.generators e = answer at asked
  obtain ⟨_ | _, e'⟩ := answer
  · exact asked
  · rw [graph_runFactors]
    exact asked

theorem runMatches_keeps (found : List (Match RuleGenerator Factor)) (e : Engine Custom) :
    Graph.Keeps .schema e.graph (runMatches found e).2.graph := by
  induction found generalizing e with
  | nil => exact .refl _ _
  | cons m rest ih =>
    have first := runMatch_keeps m e
    rw [runMatches]
    generalize runMatch m e = answer at first
    obtain ⟨_ | _, e'⟩ := answer
    · exact first
    · exact first.trans (ih e')

/-- Committing a fact keeps the schema partition, also when it fails. -/
theorem commitWith_keeps (e : Engine Custom) (id : EdgeId) (matching : Bool) :
    Graph.Keeps .schema e.graph (e.commitWith id matching).2.graph := by
  unfold commitWith
  split
  · exact .refl _ _
  · rename_i edge _
    have graph : (e.record id edge).2.graph = e.graph := by
      rw [record]
      split <;> rfl
    generalize e.record id edge = answer at graph
    obtain ⟨_ | _, e₁⟩ := answer
    · exact graph ▸ .refl _ _
    · replace graph : e₁.graph = e.graph := graph
      have fired : Graph.Keeps .schema e.graph (e₁.fire id).2.graph := by
        rw [← graph, fire]
        split
        · exact .refl _ _
        · rename_i found _ _
          exact runMatches_keeps found
            { e₁ with stats := { e₁.stats with matched := e₁.stats.matched + found.length } }
      cases matching with
      | false => exact graph ▸ .refl _ _
      | true =>
        simp only [if_true]
        generalize e₁.fire id = answer at fired
        obtain ⟨_ | _, e₂⟩ := answer <;> exact fired

end

/-! ### At rest -/

variable {e e' b : Engine} {id : EdgeId} {edge : Edge}

/-- Nothing of a document is in the engine. -/
structure Rested (e : Engine) : Prop where
  coherent : e.Coherent
  graph : e.graph.Cleared
  facts : e.facts.lasting = e.facts
  /-- Every fact that was made is committed. -/
  committed : ∀ id edge, e.graph.edges.get? id = some edge → e.facts.contains id = true
  agenda : e.agenda = .empty
  /-- The policies have recorded nothing. -/
  decisions : e.decisions.clear = e.decisions
  labels : e.labels = .empty
  stats : e.stats = .zero

/-- The second engine has become of the first by the work on a document: the schema partition is the
same, the facts that were committed are temporary, and the policies differ in what they have
recorded only. -/
structure Atop (b e : Engine) : Prop where
  coherent : e.Coherent
  others : e = { b with
    graph := e.graph
    facts := e.facts
    agenda := e.agenda
    decisions := e.decisions
    labels := e.labels
    stats := e.stats }
  graph : Graph.Keeps .schema b.graph e.graph
  facts : b.facts.Overlays e.facts
  decisions : e.decisions.clear = b.decisions.clear

theorem Rested.atop (rested : b.Rested) : Atop b b :=
  ⟨rested.coherent, rfl, .refl _ _, .refl _, rfl⟩

/-- Once a document is forgotten, the engine is what it was before. -/
theorem Rested.clearDocument_eq (rested : b.Rested) (atop : Atop b e) : e.clearDocument = b := by
  have graph : e.graph.clearTemporary = b.graph := by
    rw [rested.coherent.graph.clearTemporary_eq atop.coherent.graph atop.graph,
      rested.coherent.graph.clearTemporary_self rested.graph]
  have facts : e.facts.clearTemporary = b.facts := atop.facts.clearTemporary_eq rested.facts
  have decisions : e.decisions.clear = b.decisions := atop.decisions.trans rested.decisions
  rw [clearDocument, clearAgenda, graph, facts, decisions, atop.others, Agenda.clear, Labels.clear,
    ← rested.agenda, ← rested.labels, ← rested.stats]

/-! ### Work on a document -/

namespace Atop

/-- What is new among the committed facts is temporary. -/
theorem temporary (rested : b.Rested) (atop : Atop b e) (live : e.graph.edges.get? id = some edge)
    (new : e.facts.contains id = false) : id.isSchema = false := by
  obtain ⟨_ | _, i⟩ := id
  · have same : e.graph.edges.schema = b.graph.edges.schema := atop.graph.edges
    have liveBefore : b.graph.edges.get? ⟨.schema, i⟩ = some edge := by
      rw [← live, EdgeStore.get?, EdgeStore.get?, EdgeStore.arena, EdgeStore.arena, same]
    obtain ⟨edge', found⟩ := FactBase.contains_iff.mp (rested.committed _ edge liveBefore)
    have known := FactBase.contains_iff.mpr ⟨edge', atop.facts.extends_.edges _ _ found⟩
    simp [known] at new
  · rfl

theorem commitWith (rested : b.Rested) (atop : Atop b e) (id : EdgeId) (matching : Bool) :
    Atop b (e.commitWith id matching).2 := by
  have works := atop.coherent.works_commitWith id matching
  refine ⟨atop.coherent.commitWith id matching, by rw [works.others, atop.others],
    atop.graph.trans (commitWith_keeps e id matching), ?_,
    (clear_commitWith e id matching).trans atop.decisions⟩
  rcases commitWith_cases e id matching with steady | ⟨edge, adds⟩
  · rw [steady.facts]
    exact atop.facts
  · rw [adds.facts]
    exact atop.facts.add (atop.temporary rested adds.live adds.new) edge

theorem withGraph (atop : Atop b e) {g : Graph} (grows : Graph.Grows e.graph g)
    (keeps : Graph.Keeps .schema e.graph g) : Atop b { e with graph := g } :=
  ⟨atop.coherent.withGraph grows.wellFormed grows.extends_, by rw [atop.others],
    atop.graph.trans keeps, atop.facts, atop.decisions⟩

theorem makeFact (atop : Atop b e) (relation : String) (values : List Value) :
    Atop b (e.makeFact relation values .temporary).2 := by
  rw [Engine.makeFact]
  split
  · exact atop
  · rename_i r _
    exact atop.withGraph (Graph.makeEdgeFromValues_spec atop.coherent.graph r values .temporary).1
      (Graph.makeEdgeFromValues_keeps (by simp) e.graph r values)

theorem commitFact (rested : b.Rested) (atop : Atop b e) (relation : String) (values : List Value)
    (matching : Bool) : Atop b (e.commitFact relation values .temporary matching).2 := by
  have made := atop.makeFact relation values
  rw [Engine.commitFact]
  generalize e.makeFact relation values .temporary = answer at made
  obtain ⟨_ | id, e₁⟩ := answer
  · exact made
  · exact made.commitWith rested id matching

theorem addGold (atop : Atop b e) (id : EdgeId) : Atop b (e.addGold id).2 := by
  have coherent : (e.addGold id).2.Coherent := atop.coherent.perform (.addGold id)
  obtain ⟨labels, same⟩ : ∃ labels, (e.addGold id).2 = { e with labels } := by
    unfold Engine.addGold
    split <;> exact ⟨_, rfl⟩
  rw [same] at coherent ⊢
  exact ⟨coherent, by rw [atop.others], atop.graph, atop.facts, atop.decisions⟩

theorem step (rested : b.Rested) (atop : Atop b e) (mode : Mode) : Atop b (e.step mode).2 := by
  cases left : e.agenda.isEmpty with
  | true =>
    rw [(step_of_isEmpty left mode).2]
    exact atop
  | false =>
    obtain ⟨x, edge, asked, _, _, same, coherent, takes⟩ := atop.coherent.step_takes left mode
    have atopAsked : Atop b asked := by
      refine ⟨coherent, by rw [same, atop.others], ?_, ?_, ?_⟩
      · rw [same]
        exact atop.graph
      · rw [same]
        exact atop.facts
      · rw [same]
        exact (e.decisions.clear_decide edge x.score.read.1).trans atop.decisions
    have coherent' := atop.coherent.step mode
    generalize e.step mode = answer at takes coherent'
    cases takes with
    | fails => exact atopAsked
    | refuses s stats =>
      exact ⟨coherent', by rw [atopAsked.others], atopAsked.graph, atopAsked.facts,
        atopAsked.decisions⟩
    | accepts s stats =>
      have committed := atopAsked.commitWith rested x.edge true
      exact ⟨coherent', by rw [committed.others], committed.graph, committed.facts,
        committed.decisions⟩

theorem runWithin (rested : b.Rested) (atop : Atop b e) (mode : Mode) (fuel : Nat)
    (limit : Option Nat) : Atop b (runWithin mode fuel limit e).engine :=
  runWithin_keeps (fun _ atop => atop.step rested mode) atop fuel limit

/-- A line of a document. The relation of the names of documents is declared already. -/
theorem loadLine (rested : b.Rested) (atop : Atop b e)
    (declared : b.graph.schema.find? documentRelation ≠ none) {line : FactLine}
    (own : Document.isShared line = false) : Atop b (e.loadLine line).2 := by
  cases line with
  | declaration relation types => cases own
  | schemaFact relation values => cases own
  | fact relation values => exact atop.commitFact rested relation values _
  | label relation values =>
    have made := atop.makeFact relation values
    rw [Engine.loadLine]
    generalize e.makeFact relation values .temporary = answer at made
    obtain ⟨_ | id, e₁⟩ := answer
    · exact made
    · exact made.addGold id
  | startDocument id =>
    obtain ⟨r, found⟩ := Option.ne_none_iff_exists'.mp declared
    rw [← atop.graph.schema] at found
    simp only [Engine.loadLine, declareDocuments, found]
    exact atop.commitFact rested _ _ _

theorem load (rested : b.Rested) (atop : Atop b e)
    (declared : b.graph.schema.find? documentRelation ≠ none) {lines : List FactLine}
    (own : ∀ line ∈ lines, Document.isShared line = false) : Atop b (e.load lines).2 := by
  induction lines generalizing e with
  | nil => exact atop
  | cons line rest ih =>
    obtain ⟨ownFirst, ownRest⟩ := List.forall_mem_cons.mp own
    have loaded := atop.loadLine rested declared ownFirst
    rw [Engine.load]
    generalize e.loadLine line = answer at loaded
    obtain ⟨_ | _, e₁⟩ := answer
    · exact loaded
    · exact ih loaded ownRest

end Atop

/-! ### Setting up -/

theorem eq_withPriority_of_new {settings : Settings} (new : Engine.new settings = .ok e) :
    ∃ priority, e = .withPriority settings priority := by
  unfold Engine.new at new
  split at new
  · cases new
  · exact ⟨_, (Except.ok.inj new).symm⟩

theorem rested_withPriority (settings : Settings) (priority : Priority) :
    (Engine.withPriority settings priority).Rested := by
  refine ⟨.withPriority settings priority, ⟨rfl, rfl⟩, rfl, ?_, rfl, rfl, rfl, rfl⟩
  rintro ⟨_ | _, i⟩ edge live <;>
    simp [Engine.withPriority, Graph.empty, EdgeStore.empty, EdgeStore.get?, EdgeStore.arena]
      at live

namespace Rested

theorem withSchema (rested : e.Rested) {s : Schema} (wf : s.WellFormed)
    (extends_ : e.graph.schema.Extends s) :
    Rested { e with graph := { e.graph with schema := s } } :=
  ⟨rested.coherent.withSchema wf extends_, ⟨rested.graph.nodes, rested.graph.edges⟩, rested.facts,
    rested.committed, rested.agenda, rested.decisions, rested.labels, rested.stats⟩

theorem declare (rested : e.Rested) (name : String) (types : List String) :
    (e.declare name types).2.Rested :=
  rested.withSchema (rested.coherent.graph.schema.declareByNames name types)
    (Schema.declareByNames_extends _ name types)

/-- When one schema fact has been made and is committed, every fact that was made is committed
again. -/
theorem commitQuietly (rested : e.Rested)
    (silent : ∀ edge, e.decisions.committed edge = e.decisions)
    {g : Graph} (grows : Graph.Grows e.graph g) (cleared : g.Cleared)
    (live : g.edges.get? id = some edge)
    (only : ∀ d x, g.edges.get? d = some x → e.graph.edges.get? d = some x ∨ d = id) :
    let e' := (commitWith { e with graph := g } id false).2
    e'.Rested ∧ e'.decisions = e.decisions := by
  let e₁ : Engine := { e with graph := g }
  have coherent : e₁.Coherent := rested.coherent.withGraph grows.wellFormed grows.extends_
  have coherent' := coherent.commitWith id false
  intro e'
  have same : e' = { e₁ with facts := (e.facts.add id edge).2 } := by
    change (e₁.commitWith id false).2 = _
    cases known : e.facts.contains id with
    | true =>
      rw [(commitWith_of_contains (e := e₁) live known false).1, FactBase.add_of_contains known]
    | false =>
      rw [(commitWith_quietly (e := e₁) live known).1, record_of_new (e := e₁) known]
      simp only [e₁, silent]
  have isSchema := cleared.isSchema live
  change e'.Coherent at coherent'
  rw [same] at coherent' ⊢
  refine ⟨⟨coherent', cleared, FactBase.lasting_add_schema rested.facts isSchema
    (grows.wellFormed.lasting live isSchema), fun d x liveD => ?_, rested.agenda,
    rested.decisions, rested.labels, rested.stats⟩, rfl⟩
  rw [FactBase.contains_add_iff]
  exact (only d x liveD).symm.imp_right (rested.committed d x)

/-- A schema fact that can be made and committed. -/
theorem schemaFact (rested : e.Rested)
    (silent : ∀ edge, e.decisions.committed edge = e.decisions) {relation : String}
    {values : List Value} (ok : (e.commitFact relation values .schema false).1 = .ok ()) :
    (e.commitFact relation values .schema false).2.Rested ∧
      (e.commitFact relation values .schema false).2.decisions = e.decisions := by
  unfold commitFact makeFact at ok ⊢
  cases isR : e.requireRelation relation with
  | error failure =>
    rw [isR] at ok
    cases ok
  | ok r =>
    obtain ⟨grows, found⟩ := Graph.makeEdgeFromValues_spec rested.coherent.graph r values .schema
    have keeps : Graph.Keeps .temporary e.graph (e.graph.makeEdgeFromValues r values .schema).2 :=
      Graph.makeEdgeFromValues_keeps (by simp) e.graph r values
    have only : ∀ id d x, (e.graph.makeEdgeFromValues r values .schema).1 = .ok id →
        (e.graph.makeEdgeFromValues r values .schema).2.edges.get? d = some x →
        e.graph.edges.get? d = some x ∨ d = id := fun _ _ _ => Graph.live_makeEdgeFromValues
    simp only [isR, makeEdgeFromValues] at ok ⊢
    generalize e.graph.makeEdgeFromValues r values .schema = answer at grows found keeps only ok ⊢
    obtain ⟨failure | id, g⟩ := answer
    · cases ok
    · obtain ⟨edge, R, live, _⟩ := found id rfl
      exact rested.commitQuietly silent grows (rested.graph.of_keeps keeps) live
        fun d x => only id d x rfl

theorem loadLine_shared (rested : e.Rested)
    (silent : ∀ edge, e.decisions.committed edge = e.decisions) {line : FactLine}
    (shared : Document.isShared line = true) (ok : (e.loadLine line).1 = .ok ()) :
    (e.loadLine line).2.Rested ∧ (e.loadLine line).2.decisions = e.decisions := by
  cases line with
  | declaration relation types => exact ⟨rested.declare relation types, rfl⟩
  | schemaFact relation values => exact rested.schemaFact silent ok
  | fact relation values => cases shared
  | label relation values => cases shared
  | startDocument id => cases shared

theorem load_shared (rested : e.Rested)
    (silent : ∀ edge, e.decisions.committed edge = e.decisions) {lines : List FactLine}
    (shared : ∀ line ∈ lines, Document.isShared line = true) (ok : (e.load lines).1 = .ok ()) :
    (e.load lines).2.Rested := by
  induction lines generalizing e with
  | nil => exact rested
  | cons line rest ih =>
    obtain ⟨sharedFirst, sharedRest⟩ := List.forall_mem_cons.mp shared
    have loaded := rested.loadLine_shared silent sharedFirst
    rw [Engine.load] at ok ⊢
    generalize e.loadLine line = answer at loaded ok
    obtain ⟨_ | _, e₁⟩ := answer
    · cases ok
    · obtain ⟨rested₁, same⟩ := loaded rfl
      exact ih rested₁ (same ▸ silent) sharedRest ok

theorem addRule (rested : e.Rested) (rule : Rule) (scorer : Scorer) :
    (e.addRule rule scorer).2.Rested := by
  have coherent := rested.coherent.addRule rule scorer
  unfold Engine.addRule at coherent ⊢
  generalize rule.compile e.graph.schema = answer at coherent ⊢
  obtain ⟨_ | compiled, s⟩ := answer <;>
    exact ⟨coherent, ⟨rested.graph.nodes, rested.graph.edges⟩, rested.facts, rested.committed,
      rested.agenda, rested.decisions, rested.labels, rested.stats⟩

theorem addRules (rested : e.Rested) (rules : List Rule) : (e.addRules rules).2.Rested := by
  induction rules generalizing e with
  | nil => exact rested
  | cons rule rest ih =>
    have added := rested.addRule rule e.scorer
    rw [Engine.addRules]
    generalize e.addRule rule e.scorer = answer at added
    obtain ⟨_ | compiled, e₁⟩ := answer
    · exact added
    · have others := ih added
      simp only
      generalize e₁.addRules rest = answer at others ⊢
      obtain ⟨_ | _, e₂⟩ := answer <;> exact others

theorem addGroups (rested : e.Rested) (descriptions : List String) :
    (e.addGroups descriptions).2.Rested := by
  induction descriptions generalizing e with
  | nil => exact rested
  | cons description rest ih =>
    rw [Engine.addGroups, addGroup]
    cases isRead : Group.read description e.graph.schema with
    | error failure => exact rested
    | ok g =>
      apply ih
      have decisions : (e.decisions.add g.relation (.group g)).clear =
          e.decisions.add g.relation (.group g) := by
        rw [Dispatch.clear_add, rested.decisions, Policy.clear, Group.clear_of_read isRead]
      exact ⟨rested.coherent.perform (.addPolicy g.relation (.group g)), rested.graph, rested.facts,
        rested.committed, rested.agenda, decisions, rested.labels, rested.stats⟩

theorem installGroups (rested : e.Rested) : e.installGroups.2.Rested :=
  rested.addGroups _

end Rested

end Engine

end ScoredChaining
