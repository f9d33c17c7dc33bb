import ScoredChaining.Engine.Basic

/-!
Committing facts. A committed fact is matched against the patterns; what a completed pattern
proposes goes onto the agenda, and its factors change what is there.

All patterns that the fact completes are found before the first of them has any effect.
-/

namespace ScoredChaining.Engine

variable {Custom : Type} [Decider Custom]

/-- Adds a candidate unless it is pending or committed; the answer says whether it was added. -/
def addCandidate (e : Engine Custom) (id : EdgeId) (score : Score) :
    Except EngineError Bool × Engine Custom :=
  if e.agenda.contains id || e.facts.contains id then
    (.ok false, { e with stats := { e.stats with duplicates := e.stats.duplicates + 1 } })
  else
    match e.graph.edge id with
    | .error failure => (.error (.store failure), e)
    | .ok edge =>
      match e.agenda.add id edge score (e.priority.of e.graph edge score) with
      | (.error failure, agenda) => (.error (.agenda failure), { e with agenda })
      | (.ok (), agenda) => (.ok true, { e with agenda })

/-- Adds the conclusions of a rule as candidates. -/
def propose : List Proposal → Engine Custom → Except EngineError Unit × Engine Custom
  | [], e => (.ok (), e)
  | p :: rest, e =>
    let e := { e with stats := { e.stats with generated := e.stats.generated + 1 } }
    match e.addCandidate p.edge p.score with
    | (.error failure, e) => (.error failure, e)
    | (.ok _, e) => propose rest e

/-- Asks generators for conclusions, in order. -/
def runGenerators (bindings : List Binding) :
    List RuleGenerator → Engine Custom → Except EngineError Unit × Engine Custom
  | [], e => (.ok (), e)
  | r :: rest, e =>
    let e := { e with stats := { e.stats with firings := e.stats.firings + 1 } }
    match r.generate bindings e.graph with
    | (.error failure, graph) => (.error (.rule failure), { e with graph })
    | (.ok proposals, graph) =>
      match propose proposals { e with graph } with
      | (.error failure, e) => (.error failure, e)
      | (.ok (), e) => runGenerators bindings rest e

/-- Applies factors, in order. -/
def runFactors (bindings : List Binding) :
    List Factor → Engine Custom → Except EngineError Unit × Engine Custom
  | [], e => (.ok (), e)
  | f :: rest, e =>
    match f.rescore bindings e.graph e.priority e.agenda with
    | (.error failure, agenda) => (.error (.agenda failure), { e with agenda })
    | (.ok (), agenda) => runFactors bindings rest { e with agenda }

/-- The effects of one completed pattern: its generators, then its factors. -/
def runMatch (m : Match RuleGenerator Factor) (e : Engine Custom) :
    Except EngineError Unit × Engine Custom :=
  match runGenerators m.bindings m.actions.generators e with
  | (.error failure, e) => (.error failure, e)
  | (.ok (), e) => runFactors m.bindings m.actions.factors e

/-- The effects of completed patterns, in order. -/
def runMatches : List (Match RuleGenerator Factor) → Engine Custom →
    Except EngineError Unit × Engine Custom
  | [], e => (.ok (), e)
  | m :: rest, e =>
    match runMatch m e with
    | (.error failure, e) => (.error failure, e)
    | (.ok (), e) => runMatches rest e

/-- Matches a committed fact against the patterns, with all effects. -/
def fire (e : Engine Custom) (id : EdgeId) : Except EngineError Unit × Engine Custom :=
  match e.trie.matchEdge e.facts e.graph id with
  | .error failure => (.error (.store failure), e)
  | .ok (found, _) =>
    runMatches found { e with stats := { e.stats with matched := e.stats.matched + found.length } }

/-- Enters a live fact into the fact base and tells the policies, unless it is committed already;
the answer says which. -/
def record (e : Engine Custom) (id : EdgeId) (edge : Edge) : Bool × Engine Custom :=
  match e.facts.add id edge with
  | (false, _) => (false, e)
  | (true, facts) => (true, { e with facts, decisions := e.decisions.committed edge })

/-- Commits a fact, and matches it against the patterns on request, unless it is committed already;
the answer says which. -/
def commitWith (e : Engine Custom) (id : EdgeId) (matching : Bool) :
    Except EngineError Bool × Engine Custom :=
  match e.graph.edge id with
  | .error failure => (.error (.store failure), e)
  | .ok edge =>
    match e.record id edge with
    | (false, e) => (.ok false, e)
    | (true, e) =>
      if matching then
        match e.fire id with
        | (.error failure, e) => (.error failure, e)
        | (.ok (), e) => (.ok true, e)
      else (.ok true, e)

/-- Commits a fact and matches it against the patterns. -/
def commit (e : Engine Custom) (id : EdgeId) : Except EngineError Bool × Engine Custom :=
  e.commitWith id true

/-- Commits a fact without matching it. -/
def commitQuietly (e : Engine Custom) (id : EdgeId) : Except EngineError Bool × Engine Custom :=
  e.commitWith id false

/-- Gives the candidates the priorities that the engine's priority says. -/
def reprioritize (e : Engine Custom) : List EdgeId → Except EngineError Unit × Engine Custom
  | [] => (.ok (), e)
  | id :: rest =>
    match e.graph.edge id with
    | .error failure => (.error (.store failure), e)
    | .ok edge =>
      match e.agenda.updateScore id fun score => (score, e.priority.of e.graph edge score) with
      | (.error failure, agenda) => (.error (.agenda failure), { e with agenda })
      | (.ok _, agenda) => { e with agenda }.reprioritize rest

/-- Replaces the priority, also that of the pending candidates. -/
def setPriority (e : Engine Custom) (priority : Priority) :
    Except EngineError Unit × Engine Custom :=
  { e with priority }.reprioritize (e.agenda.toList.map Entry.edge)

end ScoredChaining.Engine
