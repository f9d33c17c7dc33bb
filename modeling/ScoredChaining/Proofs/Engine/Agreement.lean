import ScoredChaining.Proofs.Agenda.Agreement
import ScoredChaining.Proofs.Engine.History

/-!
The candidates of an engine, against its graph and its priority.

* `Engine.Agrees`: the graph is well-formed, and the agenda agrees with it and with the priority of
  the engine. Every function that touches the graph, the agenda or the priority keeps this, also when
  it fails.
* `Engine.Reachable.agrees`: it holds of every engine that operations make of a new one.
* `Engine.Agreement`: what this says of committed facts, of candidates and of steps.
* `Engine.agreement_of_jobs`: it holds of an engine after all that it can be asked.
-/

namespace ScoredChaining

variable {Custom : Type} [Decider Custom]

theorem Edge.mem_nodes_iff {edge : Edge} {n : NodeId} :
    n ∈ edge.head :: edge.tail ↔ ∃ p, (n, p) ∈ edge.endpoints := by
  rw [List.mem_cons, List.mem_iff_getElem?]
  simp only [mem_endpoints]
  constructor
  · rintro (rfl | ⟨i, at_⟩)
    · exact ⟨.head, rfl⟩
    · exact ⟨.tail i, at_⟩
  · rintro ⟨_ | i, at_⟩
    · exact .inl (Option.some.inj at_).symm
    · exact .inr ⟨i, at_⟩

/-! ### Generators -/

namespace RuleGenerator

variable {g : Graph}

theorem conclusionNodes_grows (wf : g.WellFormed) (text : String) (env : Environment)
    (args : List Arg) (types : List TypeId) :
    Graph.Grows g (conclusionNodes text env args types g).2 := by
  induction args generalizing g types with
  | nil => exact .refl wf
  | cons arg args ih =>
    cases types with
    | nil => cases arg <;> exact .refl wf
    | cons type types =>
      cases arg with
      | var name =>
        rw [conclusionNodes]
        split
        · exact .refl wf
        · have rest := ih wf types
          generalize conclusionNodes text env args types g = answer at rest
          obtain ⟨_ | _, g'⟩ := answer <;> exact rest
      | const c =>
        have interned := (Graph.internNode_spec wf type c .temporary).1
        rw [conclusionNodes]
        generalize g.internNode type c .temporary = answer at interned
        obtain ⟨_ | n, g'⟩ := answer
        · exact interned
        · have rest := interned.trans (ih interned.wellFormed types)
          simp only
          generalize conclusionNodes text env args types g' = answer at rest
          obtain ⟨_ | _, g''⟩ := answer <;> exact rest

theorem conclude_grows (wf : g.WellFormed) (r : RuleGenerator) (env : Environment) :
    Graph.Grows g (r.conclude env g).2 := by
  rw [conclude]
  split
  · exact .refl wf
  · rename_i signature _
    have nodes := conclusionNodes_grows wf r.rule.rule.text env r.rule.rule.conclusion.args
      signature.argTypes
    generalize conclusionNodes r.rule.rule.text env r.rule.rule.conclusion.args
      signature.argTypes g = answer at nodes
    obtain ⟨_ | tail, g'⟩ := answer
    · exact nodes
    · have made := nodes.trans
        (Graph.makeEdge_spec nodes.wellFormed r.rule.conclusionRelation tail .temporary).1
      simp only
      generalize g'.makeEdge r.rule.conclusionRelation tail .temporary = answer at made
      obtain ⟨_ | id, g''⟩ := answer
      · exact made
      · simp only
        split <;> exact made

/-- Asking a generator lets the graph grow, also when it fails. -/
theorem generate_grows (wf : g.WellFormed) (r : RuleGenerator) (bindings : List Binding) :
    Graph.Grows g (r.generate bindings g).2 := by
  simp only [generate]
  split
  · exact .refl wf
  · split
    · exact .refl wf
    · exact .refl wf
    · exact conclude_grows wf r _

end RuleGenerator

namespace Engine

variable {e e' : Engine Custom}

/-- The graph is well-formed, and the agenda agrees with it and with the priority. -/
structure Agrees (e : Engine Custom) : Prop where
  graph : e.graph.WellFormed
  agenda : e.agenda.Agrees e.graph e.priority

namespace Agrees

theorem withPriority (settings : Settings) (priority : Priority) :
    (Engine.withPriority settings priority : Engine Custom).Agrees :=
  ⟨.empty, .empty _ _⟩

/-- The graph may grow. -/
theorem withGraph (agrees : e.Agrees) {g : Graph} (wf : g.WellFormed)
    (extends_ : e.graph.Extends g) : Agrees { e with graph := g } :=
  ⟨wf, agrees.agenda.mono agrees.graph extends_⟩

theorem withSchema (agrees : e.Agrees) {s : Schema} (wf : s.WellFormed)
    (extends_ : e.graph.schema.Extends s) :
    Agrees { e with graph := { e.graph with schema := s } } :=
  have grown := agrees.graph.withSchema wf extends_
  agrees.withGraph grown.1 grown.2

theorem addCandidate (agrees : e.Agrees) (id : EdgeId) (score : Score) :
    (e.addCandidate id score).2.Agrees := by
  unfold Engine.addCandidate
  split
  · exact ⟨agrees.graph, agrees.agenda⟩
  · split
    · exact agrees
    · rename_i edge live
      have added := agrees.agenda.add (Graph.edge_eq_ok_iff.mp live) score
      generalize e.agenda.add id edge score (e.priority.of e.graph edge score) = answer at added
      obtain ⟨_ | _, agenda⟩ := answer <;> exact ⟨agrees.graph, added⟩

theorem propose (agrees : e.Agrees) (proposals : List Proposal) :
    (Engine.propose proposals e).2.Agrees := by
  induction proposals generalizing e with
  | nil => exact agrees
  | cons p rest ih =>
    rw [Engine.propose]
    let counted : Engine Custom :=
      { e with stats := { e.stats with generated := e.stats.generated + 1 } }
    have added := addCandidate (e := counted) ⟨agrees.graph, agrees.agenda⟩ p.edge p.score
    simp only
    generalize counted.addCandidate p.edge p.score = answer at added
    obtain ⟨_ | _, e'⟩ := answer
    · exact added
    · exact ih added

theorem runGenerators (agrees : e.Agrees) (bindings : List Binding)
    (generators : List RuleGenerator) : (Engine.runGenerators bindings generators e).2.Agrees := by
  induction generators generalizing e with
  | nil => exact agrees
  | cons r rest ih =>
    rw [Engine.runGenerators]
    have grows := r.generate_grows agrees.graph bindings
    simp only
    generalize r.generate bindings e.graph = answer at grows
    obtain ⟨_ | proposals, graph⟩ := answer
    · exact ⟨grows.wellFormed, agrees.agenda.mono agrees.graph grows.extends_⟩
    · let counted : Engine Custom :=
        { e with graph, stats := { e.stats with firings := e.stats.firings + 1 } }
      have proposed := propose (e := counted)
        ⟨grows.wellFormed, agrees.agenda.mono agrees.graph grows.extends_⟩ proposals
      simp only
      generalize Engine.propose proposals counted = answer at proposed
      obtain ⟨_ | _, e'⟩ := answer
      · exact proposed
      · exact ih proposed

theorem runFactors (agrees : e.Agrees) (bindings : List Binding) (factors : List Factor) :
    (Engine.runFactors bindings factors e).2.Agrees := by
  induction factors generalizing e with
  | nil => exact agrees
  | cons f rest ih =>
    rw [Engine.runFactors]
    have rescored := Factor.agrees_rescore agrees.agenda f bindings
    generalize f.rescore bindings e.graph e.priority e.agenda = answer at rescored
    obtain ⟨_ | _, agenda⟩ := answer
    · exact ⟨agrees.graph, rescored⟩
    · exact ih ⟨agrees.graph, rescored⟩

theorem runMatch (agrees : e.Agrees) (m : Match RuleGenerator Factor) :
    (Engine.runMatch m e).2.Agrees := by
  rw [Engine.runMatch]
  have asked := agrees.runGenerators m.bindings m.actions.generators
  generalize Engine.runGenerators m.bindings m.actions.generators e = answer at asked
  obtain ⟨_ | _, e'⟩ := answer
  · exact asked
  · exact asked.runFactors m.bindings m.actions.factors

theorem runMatches (agrees : e.Agrees) (found : List (Match RuleGenerator Factor)) :
    (Engine.runMatches found e).2.Agrees := by
  induction found generalizing e with
  | nil => exact agrees
  | cons m rest ih =>
    rw [Engine.runMatches]
    have taken := agrees.runMatch m
    generalize Engine.runMatch m e = answer at taken
    obtain ⟨_ | _, e'⟩ := answer
    · exact taken
    · exact ih taken

theorem fire (agrees : e.Agrees) (id : EdgeId) : (e.fire id).2.Agrees := by
  rw [Engine.fire]
  split
  · exact agrees
  · apply runMatches
    exact ⟨agrees.graph, agrees.agenda⟩

theorem record (agrees : e.Agrees) (id : EdgeId) (edge : Edge) : (e.record id edge).2.Agrees := by
  rw [Engine.record]
  split <;> exact ⟨agrees.graph, agrees.agenda⟩

theorem commitWith (agrees : e.Agrees) (id : EdgeId) (matching : Bool) :
    (e.commitWith id matching).2.Agrees := by
  rw [Engine.commitWith]
  split
  · exact agrees
  · rename_i edge _
    have recorded := agrees.record id edge
    generalize e.record id edge = answer at recorded
    obtain ⟨_ | _, e'⟩ := answer
    · exact recorded
    · cases matching with
      | false => exact recorded
      | true =>
        have fired := recorded.fire id
        simp only [if_true]
        generalize e'.fire id = answer at fired
        obtain ⟨_ | _, e''⟩ := answer <;> exact fired

theorem conclude (agrees : e.Agrees) (id : EdgeId) (answer : Option Bool) :
    (e.conclude id answer).2.Agrees := by
  obtain ⟨stats, same, _⟩ := e.conclude_cases id answer
  rw [same]
  split
  · have committed := agrees.commitWith id true
    exact ⟨committed.graph, committed.agenda⟩
  · exact ⟨agrees.graph, agrees.agenda⟩

theorem consider (agrees : e.Agrees) (mode : Mode) (c : Candidate) :
    (e.consider mode c).2.Agrees := by
  rw [snd_consider]
  split
  · exact agrees
  · split
    · exact ⟨agrees.graph, agrees.agenda⟩
    · apply conclude
      exact ⟨agrees.graph, agrees.agenda⟩

theorem step (agrees : e.Agrees) (mode : Mode) : (e.step mode).2.Agrees := by
  rw [Engine.step]
  have popped := agrees.agenda.pop
  generalize e.agenda.pop = answer at popped
  obtain ⟨_ | c, agenda⟩ := answer
  · exact ⟨agrees.graph, popped⟩
  · apply consider
    exact ⟨agrees.graph, popped⟩

/-! ### A new priority -/

/-- Giving candidates their priorities does not fail when they are pending. It leaves no candidate
with another priority if those that it does not come to have theirs. -/
theorem reprioritize (graph : e.graph.WellFormed) (valid : e.agenda.Valid) {ids : List EdgeId}
    (pending : ∀ id ∈ ids, id ∈ e.agenda.pending)
    (entries : ∀ x ∈ e.agenda.toList, ∃ edge, x.Fits e.graph edge ∧
      (x.edge ∈ ids ∨ x.priority = e.priority.of e.graph edge x.score)) :
    (e.reprioritize ids).1 = .ok () ∧ (e.reprioritize ids).2.Agrees := by
  induction ids generalizing e with
  | nil =>
    refine ⟨rfl, graph, valid, ?_⟩
    intro x mem
    obtain ⟨edge, fits, none | priced⟩ := entries x mem
    · cases none
    · exact ⟨edge, fits, priced⟩
  | cons id rest ih =>
    obtain ⟨pendingFirst, pendingRest⟩ := List.forall_mem_cons.mp pending
    obtain ⟨x, mem, rfl⟩ := List.mem_map.mp pendingFirst
    obtain ⟨edge, ⟨live, nodes⟩, _⟩ := entries x mem
    simp only [Engine.reprioritize, Graph.edge_eq_ok_iff.mpr live]
    let update (score : Score) : Score × Double := (score, e.priority.of e.graph edge score)
    obtain ⟨y, _, _, ok, _, perm⟩ := valid.linked.updateScore pendingFirst update
    have valid' := valid.updateScore x.edge update
    have edges := Agenda.pending_updated update perm
    simp only [update] at ok valid' edges perm
    generalize e.agenda.updateScore x.edge
      (fun score => (score, e.priority.of e.graph edge score)) = answer at ok valid' edges perm
    obtain ⟨result, agenda⟩ := answer
    obtain rfl : result = .ok y.score := ok
    apply ih (e := { e with agenda }) graph valid'
    · intro d memD
      exact edges.mem_iff.mpr (pendingRest d memD)
    · intro z memZ
      obtain ⟨w, memW, rfl⟩ := List.mem_map.mp (perm.mem_iff.mp memZ)
      obtain ⟨edge', fits, priced⟩ := entries w memW
      by_cases same : w.edge = x.edge
      · rw [Agenda.updated, if_pos same]
        obtain rfl : edge = edge' := Option.some.inj (live.symm.trans (same ▸ fits.1))
        exact ⟨edge, fits, .inr rfl⟩
      · rw [Agenda.updated, if_neg same]
        exact ⟨edge', fits, priced.imp_left fun mem => (List.mem_cons.mp mem).resolve_left same⟩

theorem setPriority (agrees : e.Agrees) (priority : Priority) :
    (e.setPriority priority).1 = .ok () ∧ (e.setPriority priority).2.Agrees := by
  apply reprioritize (e := { e with priority }) agrees.graph agrees.agenda.valid
  · exact fun id mem => mem
  · intro x mem
    obtain ⟨edge, fits, _⟩ := agrees.agenda.entries x mem
    exact ⟨edge, fits, .inl (mem_pending_of_mem mem)⟩

/-! ### Operations -/

theorem addRule (agrees : e.Agrees) (rule : Rule) (scorer : Scorer) :
    (e.addRule rule scorer).2.Agrees := by
  obtain ⟨extends_, wellFormed⟩ := rule.compile_schema e.graph.schema
  have grown := agrees.withSchema (wellFormed agrees.graph.schema) extends_
  unfold Engine.addRule
  generalize rule.compile e.graph.schema = answer at grown ⊢
  obtain ⟨_ | compiled, s⟩ := answer <;> exact ⟨grown.graph, grown.agenda⟩

theorem addGold (agrees : e.Agrees) (id : EdgeId) : (e.addGold id).2.Agrees := by
  rw [Engine.addGold]
  split <;> exact ⟨agrees.graph, agrees.agenda⟩

/-- Every operation, whether it succeeds or fails, leaves the candidates in agreement with the graph
and the priority. -/
theorem perform (agrees : e.Agrees) (op : Operation Custom) : (op.perform e).Agrees := by
  have wf := agrees.graph
  cases op with
  | internType name =>
    exact agrees.withSchema (wf.schema.internType name) (Schema.internType_extends _ name)
  | declare name types =>
    exact agrees.withSchema (wf.schema.declareByNames name types)
      (Schema.declareByNames_extends _ name types)
  | internNode type value partition =>
    have grows := (Graph.internNode_spec wf type value partition).1
    exact agrees.withGraph grows.wellFormed grows.extends_
  | lookupNode type value create =>
    have grows := Graph.lookupNode_grows wf type value create .temporary
    exact agrees.withGraph grows.wellFormed grows.extends_
  | makeEdge relation tail partition =>
    have grows := (Graph.makeEdge_spec wf relation tail partition).1
    exact agrees.withGraph grows.wellFormed grows.extends_
  | makeEdgeFromValues relation values partition =>
    have grows := (Graph.makeEdgeFromValues_spec wf relation values partition).1
    exact agrees.withGraph grows.wellFormed grows.extends_
  | addRule rule scorer => exact agrees.addRule rule scorer
  | addFactor relation factor => exact ⟨wf, agrees.agenda⟩
  | setFallback policy => exact ⟨wf, agrees.agenda⟩
  | addPolicy relation policy => exact ⟨wf, agrees.agenda⟩
  | addCandidate id score => exact agrees.addCandidate id score
  | commit id matching => exact agrees.commitWith id matching
  | step mode => exact agrees.step mode
  | setPriority priority => exact (agrees.setPriority priority).2
  | addGold id => exact agrees.addGold id
  | clearAgenda => exact ⟨wf, .empty _ _⟩
  | clearDocument => exact ⟨wf.clearTemporary, .empty _ _⟩

end Agrees

theorem Reachable.agrees (reachable : Reachable e) : e.Agrees := by
  induction reachable with
  | start settings priority => exact .withPriority settings priority
  | next _ op ih => exact ih.perform op

/-! ### What the parts say of one another -/

/-- The entry says of a pending candidate what the graph and the priority say of it now. -/
structure Current (e : Engine Custom) (x : Entry) (edge : Edge) : Prop where
  live : e.graph.edge x.edge = .ok edge
  nodes : ∀ n, n ∈ x.nodes ↔ ∃ p, (n, p) ∈ edge.endpoints
  priority : x.priority = e.priority.of e.graph edge x.score

/-- The parts of an engine say the same of every fact. -/
structure Agreement (e : Engine Custom) : Prop where
  /-- A committed fact is live, and the fact base has its content. -/
  committed : ∀ id, e.facts.contains id = true →
    ∃ edge, e.graph.edge id = .ok edge ∧ e.facts.edge? id = some edge
  listed : ∀ id, id ∈ e.facts.order ↔ e.facts.contains id = true
  pending : ∀ id, e.agenda.contains id = true ↔ ∃ x ∈ e.agenda.toList, x.edge = id
  current : ∀ x ∈ e.agenda.toList, ∃ edge, e.Current x edge
  /-- When candidates are pending, one comes off the agenda that now has the highest priority. -/
  popped : e.agenda.isEmpty = false → ∃ c edge, e.agenda.pop.1 = .ok c ∧
    e.graph.edge c.edge = .ok edge ∧
    ∀ x ∈ e.agenda.toList, ∀ other, e.graph.edge x.edge = .ok other →
      totalRank (e.priority.of e.graph other x.score) ≤
        totalRank (e.priority.of e.graph edge c.score)
  /-- It is the one that a step is about. -/
  stepped : ∀ mode s, (e.step mode).1 = .ok s → ∃ c, e.agenda.pop.1 = .ok c ∧ s.edge = c.edge

theorem Agrees.current (agrees : e.Agrees) {x : Entry} (mem : x ∈ e.agenda.toList) :
    ∃ edge, e.Current x edge := by
  obtain ⟨edge, ⟨live, nodes⟩, priced⟩ := agrees.agenda.entries x mem
  refine ⟨edge, Graph.edge_eq_ok_iff.mpr live, ?_, priced⟩
  intro n
  rw [nodes, mem_distinct, Edge.mem_nodes_iff]

theorem Agrees.popped (agrees : e.Agrees) (busy : e.agenda.isEmpty = false) :
    ∃ c edge, e.agenda.pop.1 = .ok c ∧ e.graph.edge c.edge = .ok edge ∧
      ∀ x ∈ e.agenda.toList, ∀ other, e.graph.edge x.edge = .ok other →
        totalRank (e.priority.of e.graph other x.score) ≤
          totalRank (e.priority.of e.graph edge c.score) := by
  obtain ⟨x, mem, ok, highest⟩ := agrees.agenda.valid.pop_highest busy
  obtain ⟨edge, current⟩ := agrees.current mem
  refine ⟨Agenda.candidate x, edge, ok, current.live, ?_⟩
  intro y memY other live
  obtain ⟨other', current'⟩ := agrees.current memY
  obtain rfl : other' = other := Except.ok.inj (current'.live.symm.trans live)
  rw [← current'.priority]
  exact current.priority ▸ highest y memY

/-- What a step that succeeds is about has come off the agenda. -/
theorem edge_of_step {mode : Mode} {s : Step} (taken : (e.step mode).1 = .ok s) :
    ∃ c, e.agenda.pop.1 = .ok c ∧ s.edge = c.edge := by
  unfold Engine.step at taken
  generalize e.agenda.pop = answer at taken ⊢
  obtain ⟨_ | c, agenda⟩ := answer
  · cases taken
  · refine ⟨c, rfl, ?_⟩
    simp only [consider] at taken
    split at taken
    · cases taken
    · split at taken
      · cases taken
      · split at taken
        · cases taken
        · cases taken
          rfl

theorem Reachable.agreement (reachable : Reachable e) : e.Agreement where
  committed id contained := by
    obtain ⟨edge, found⟩ := FactBase.contains_iff.mp contained
    exact ⟨edge, Graph.edge_eq_ok_iff.mpr (reachable.coherent.committed id edge found), found⟩
  listed id := (reachable.coherent.facts.order id).trans FactBase.contains_iff.symm
  pending id := reachable.coherent.agenda.contains_iff.trans List.mem_map
  current _ mem := reachable.agrees.current mem
  popped busy := reachable.agrees.popped busy
  stepped _ _ taken := edge_of_step taken

/-! ### All that an engine can be asked -/

/-- What an engine can be asked to do: one operation, or one of those that take several. -/
inductive Job (Custom : Type := Empty) where
  | one (op : Operation Custom)
  | readRule (text : String) (scorer : Scorer)
  | addRules (rules : List Rule)
  | addGroups (descriptions : List String)
  | installGroups
  | load (lines : List FactLine)
  | run (mode : Mode) (fuel : Nat)

/-- The engine after a job, which may have failed. -/
def Job.perform (e : Engine Custom) : Job Custom → Engine Custom
  | .one op => op.perform e
  | .readRule text scorer => (e.readRule text scorer).2
  | .addRules rules => (e.addRules rules).2
  | .addGroups descriptions => (e.addGroups descriptions).2
  | .installGroups => e.installGroups.2
  | .load lines => (e.load lines).2
  | .run mode fuel => (e.run mode fuel).engine

/-- No job leads to an engine that operations do not lead to. -/
theorem Reachable.job (reachable : Reachable e) (job : Job Custom) : Reachable (job.perform e) := by
  cases job with
  | one op => exact reachable.next op
  | readRule text scorer => exact reachable.readRule text scorer
  | addRules rules => exact reachable.addRules rules
  | addGroups descriptions => exact reachable.addGroups descriptions
  | installGroups => exact reachable.installGroups
  | load lines => exact reachable.load lines
  | run mode fuel => exact reachable.run mode fuel

theorem Reachable.jobs (reachable : Reachable e) (jobs : List (Job Custom)) :
    Reachable (jobs.foldl Job.perform e) := by
  induction jobs generalizing e with
  | nil => exact reachable
  | cons job rest ih => exact ih (reachable.job job)

/-- Whatever a new engine is asked, in any order, and whether it succeeds or fails: in the end the
graph, the fact base, the agenda and the priority say the same of every fact. -/
theorem agreement_of_jobs (settings : Settings) (priority : Priority) (jobs : List (Job Custom)) :
    (jobs.foldl Job.perform (.withPriority settings priority)).Agreement := by
  have reachable := (Reachable.start settings priority).jobs jobs
  exact reachable.agreement

end Engine

end ScoredChaining
