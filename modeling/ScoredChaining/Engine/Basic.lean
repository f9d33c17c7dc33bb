import ScoredChaining.Agenda.Basic
import ScoredChaining.Decision.Policy
import ScoredChaining.Document.Line
import ScoredChaining.Factor
import ScoredChaining.Gold.Labels
import ScoredChaining.Settings.Basic
import ScoredChaining.Settings.Error

/-!
The engine: all that forward chaining works on, and how it is set up.

The graph holds everything that was ever mentioned, the fact base what was committed, and the
agenda what waits for a decision. Operations that can fail answer with the engine as they left it.
-/

namespace ScoredChaining

/-- What an engine has done since the beginning of the document. -/
structure RunStats where
  /-- Candidates taken off the agenda to be decided about. -/
  pops : Nat
  /-- Candidates committed. -/
  commits : Nat
  rejects : Nat
  /-- Candidates rejected because no policy had an answer. -/
  undecided : Nat
  /-- Patterns completed. -/
  matched : Nat
  /-- Generators asked for conclusions. -/
  firings : Nat
  /-- Conclusions drawn. -/
  generated : Nat
  /-- Candidates refused because they were pending or committed. -/
  duplicates : Nat
  /-- A run stopped at its limit with candidates left. -/
  hitPopLimit : Bool
  deriving Repr, DecidableEq, Inhabited

namespace RunStats

/-- Nothing done. -/
def zero : RunStats :=
  ⟨0, 0, 0, 0, 0, 0, 0, 0, false⟩

/-- What was done after `earlier`. -/
def since (s earlier : RunStats) : RunStats where
  pops := s.pops - earlier.pops
  commits := s.commits - earlier.commits
  rejects := s.rejects - earlier.rejects
  undecided := s.undecided - earlier.undecided
  matched := s.matched - earlier.matched
  firings := s.firings - earlier.firings
  generated := s.generated - earlier.generated
  duplicates := s.duplicates - earlier.duplicates
  hitPopLimit := false

end RunStats

/-- Failures of the engine. -/
inductive EngineError where
  | schema (error : SchemaError)
  | store (error : StoreError)
  | agenda (error : AgendaError)
  | rule (error : RuleError)
  | decision (error : DecisionError)
  | document (error : DocumentError)
  | settings (error : SettingsError)
  deriving DecidableEq

/-- The wording of an engine failure. -/
def EngineError.diagnostic : EngineError → Diagnostic
  | .schema error => error.diagnostic
  | .store error => error.diagnostic
  | .agenda error => error.diagnostic
  | .rule error => error.diagnostic
  | .decision error => error.diagnostic
  | .document error => error.diagnostic
  | .settings error => error.diagnostic

instance : Explained EngineError := ⟨EngineError.diagnostic⟩

/-- An engine. Its policies may be of a custom kind as well, if a type of them is given. -/
structure Engine (Custom : Type := Empty) [Decider Custom] where
  settings : Settings
  graph : Graph
  facts : FactBase
  agenda : Agenda
  trie : Trie RuleGenerator Factor
  priority : Priority
  decisions : Dispatch Custom
  /-- The scorer of rules that have none of their own. -/
  scorer : Scorer
  rules : List CompiledRule
  labels : Labels
  stats : RunStats

namespace Engine

variable {Custom : Type} [Decider Custom]

/-- An engine with nothing in it that takes candidates in the order of a priority. -/
def withPriority (settings : Settings) (priority : Priority) : Engine Custom where
  settings := settings
  graph := .empty
  facts := .empty
  agenda := .empty
  trie := .empty
  priority := priority
  decisions := .ofFallback (.threshold settings.threshold none)
  scorer := .constant settings.ruleScore
  rules := []
  labels := .empty
  stats := .zero

/-- An engine with the usual settings. -/
def usual : Engine Custom :=
  withPriority .usual .byScore

instance : Inhabited (Engine Custom) := ⟨usual⟩

/-- An engine with these settings. The group constraints among them need their relations and are
installed later. -/
def new (settings : Settings) : Except EngineError (Engine Custom) :=
  match settings.readPriority with
  | .error e => .error (.settings (.priority e))
  | .ok priority => .ok (withPriority settings priority)

/-! ### Schema and graph -/

/-- The type with this name, declared if it is new. -/
def internType (e : Engine Custom) (name : String) : TypeId × Engine Custom :=
  let (t, schema) := e.graph.schema.internType name
  (t, { e with graph := { e.graph with schema } })

/-- Declares a relation over named types. -/
def declare (e : Engine Custom) (name : String) (types : List String) :
    Except EngineError RelationId × Engine Custom :=
  let (result, schema) := e.graph.schema.declareByNames name types
  (result.mapError .schema, { e with graph := { e.graph with schema } })

/-- The number of the relation with this name. -/
def requireRelation (e : Engine Custom) (name : String) : Except EngineError RelationId :=
  (e.graph.schema.require name).mapError .schema

/-- The node with this type and value, created on request as a temporary node. -/
def lookupNode (e : Engine Custom) (type : TypeId) (value : Value) (create : Bool) :
    Except EngineError (Option NodeId) × Engine Custom :=
  let (result, graph) := e.graph.lookupNode type value create .temporary
  (result.mapError .store, { e with graph })

/-- The fact with these arguments. -/
def makeEdge (e : Engine Custom) (relation : RelationId) (tail : List NodeId)
    (partition : Partition) :
    Except EngineError EdgeId × Engine Custom :=
  let (result, graph) := e.graph.makeEdge relation tail partition
  (result.mapError .store, { e with graph })

/-- The fact with these values as arguments. -/
def makeEdgeFromValues (e : Engine Custom) (relation : RelationId) (values : List Value)
    (partition : Partition) : Except EngineError EdgeId × Engine Custom :=
  let (result, graph) := e.graph.makeEdgeFromValues relation values partition
  (result.mapError .store, { e with graph })

/-- The content of a live fact. -/
def edge (e : Engine Custom) (id : EdgeId) : Except EngineError Edge :=
  (e.graph.edge id).mapError .store

/-! ### Rules, factors and policies -/

/-- Attaches a rule to the end of each of its patterns. -/
def attach (rule : CompiledRule) (scorer : Scorer) (t : Trie RuleGenerator Factor) :
    Trie RuleGenerator Factor :=
  rule.paths.foldl (fun t path => t.addGenerator path.keys ⟨rule, path, scorer⟩) t

/-- Adds a rule. -/
def addRule (e : Engine Custom) (rule : Rule) (scorer : Scorer) :
    Except EngineError CompiledRule × Engine Custom :=
  match rule.compile e.graph.schema with
  | (.error failure, schema) =>
    (.error (.rule failure), { e with graph := { e.graph with schema } })
  | (.ok compiled, schema) =>
    (.ok compiled,
      { e with
        graph := { e.graph with schema }
        trie := attach compiled scorer e.trie
        rules := e.rules ++ [compiled] })

/-- Reads a rule and adds it. -/
def readRule (e : Engine Custom) (text : String) (scorer : Scorer) :
    Except EngineError CompiledRule × Engine Custom :=
  match Rule.read text with
  | .error failure => (.error (.rule failure), e)
  | .ok rule => e.addRule rule scorer

/-- Adds rules in order, with the engine's own scorer. -/
def addRules (e : Engine Custom) :
    List Rule → Except EngineError (List CompiledRule) × Engine Custom
  | [] => (.ok [], e)
  | rule :: rest =>
    match e.addRule rule e.scorer with
    | (.error failure, e) => (.error failure, e)
    | (.ok compiled, e) =>
      match e.addRules rest with
      | (.error failure, e) => (.error failure, e)
      | (.ok others, e) => (.ok (compiled :: others), e)

/-- Applies a factor whenever a fact of the relation is committed. -/
def addFactor (e : Engine Custom) (relation : RelationId) (factor : Factor) : Engine Custom :=
  { e with trie := e.trie.addFactor [.relation relation .head] factor }

/-- Replaces the policy that is asked where no other has an answer. -/
def setFallback (e : Engine Custom) (policy : Policy Custom) : Engine Custom :=
  { e with decisions := e.decisions.setFallback policy }

/-- Adds a policy for a relation. Those that the relation has already are asked first. -/
def addPolicy (e : Engine Custom) (relation : RelationId) (policy : Policy Custom) :
    Engine Custom :=
  { e with decisions := e.decisions.add relation policy }

/-- Adds a group constraint. -/
def addGroup (e : Engine Custom) (description : String) : Except EngineError (Engine Custom) :=
  match Group.read description e.graph.schema with
  | .error failure => .error (.decision failure)
  | .ok g => .ok (e.addPolicy g.relation (.group g))

/-- Adds group constraints in order, up to the first that fails. -/
def addGroups (e : Engine Custom) : List String → Except EngineError Unit × Engine Custom
  | [] => (.ok (), e)
  | description :: rest =>
    match e.addGroup description with
    | .error failure => (.error failure, e)
    | .ok e => e.addGroups rest

/-- Adds the group constraints of the settings. -/
def installGroups (e : Engine Custom) : Except EngineError Unit × Engine Custom :=
  e.addGroups e.settings.decisions

/-! ### Forgetting -/

/-- Drops the pending candidates and what the policies have recorded. -/
def clearAgenda (e : Engine Custom) : Engine Custom :=
  { e with agenda := e.agenda.clear, decisions := e.decisions.clear }

/-- Forgets the document: candidates, temporary facts and nodes, gold facts and counts. The schema,
the schema facts and the rules stay. -/
def clearDocument (e : Engine Custom) : Engine Custom :=
  { e.clearAgenda with
    facts := e.facts.clearTemporary
    graph := e.graph.clearTemporary
    labels := e.labels.clear
    stats := .zero }

/-! ### Reports -/

/-- The committed temporary facts in order. -/
def committedFacts (e : Engine Custom) : List EdgeId :=
  e.facts.order.filter fun id => !id.isSchema

/-- How well the committed temporary facts agree with the gold facts, over the relations that have
gold facts. -/
def tally (e : Engine Custom) : Tally :=
  let predicted := e.facts.toList.filter fun (id, edge) =>
    !id.isSchema && 0 < e.labels.count edge.relation
  e.labels.tally (predicted.map Prod.snd) none

end Engine

end ScoredChaining
