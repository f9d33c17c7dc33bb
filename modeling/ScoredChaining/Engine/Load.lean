import ScoredChaining.Document.Line
import ScoredChaining.Engine.Commit

/-!
Loading the lines of a fact file into an engine, in order.
-/

namespace ScoredChaining.Engine

variable {Custom : Type} [Decider Custom]

/-- The relation whose facts name the documents. -/
def documentRelation : String := "startDoc"

/-- The type of the names of documents. -/
def documentType : String := "docid"

/-- The fact of the named relation with these values. -/
def makeFact (e : Engine Custom) (relation : String) (values : List Value) (partition : Partition) :
    Except EngineError EdgeId × Engine Custom :=
  match e.requireRelation relation with
  | .error failure => (.error failure, e)
  | .ok r => e.makeEdgeFromValues r values partition

/-- Makes and commits the fact of the named relation with these values. -/
def commitFact (e : Engine Custom) (relation : String) (values : List Value) (partition : Partition)
    (matching : Bool) : Except EngineError Unit × Engine Custom :=
  match e.makeFact relation values partition with
  | (.error failure, e) => (.error failure, e)
  | (.ok id, e) =>
    let (result, e) := e.commitWith id matching
    (result.map fun _ => (), e)

/-- Makes a fact gold; the answer says whether it is new among the gold facts. -/
def addGold (e : Engine Custom) (id : EdgeId) : Except EngineError Bool × Engine Custom :=
  match e.graph.edge id with
  | .error failure => (.error (.store failure), e)
  | .ok edge =>
    let (isNew, labels) := e.labels.add edge
    (.ok isNew, { e with labels })

/-- Declares the relation that names the documents, unless there is a relation of its name. -/
def declareDocuments (e : Engine Custom) : Except EngineError Unit × Engine Custom :=
  match e.graph.schema.find? documentRelation with
  | some _ => (.ok (), e)
  | none =>
    let (result, e) := e.declare documentRelation [documentType]
    (result.map fun _ => (), e)

/-- Loads a line. -/
def loadLine (e : Engine Custom) : FactLine → Except EngineError Unit × Engine Custom
  | .declaration relation types =>
    let (result, e) := e.declare relation types
    (result.map fun _ => (), e)
  | .schemaFact relation values => e.commitFact relation values .schema false
  | .fact relation values => e.commitFact relation values .temporary (!e.settings.noMatchOnLoad)
  | .label relation values =>
    match e.makeFact relation values .temporary with
    | (.error failure, e) => (.error failure, e)
    | (.ok id, e) =>
      let (result, e) := e.addGold id
      (result.map fun _ => (), e)
  | .startDocument id =>
    match e.declareDocuments with
    | (.error failure, e) => (.error failure, e)
    | (.ok (), e) => e.commitFact documentRelation [.str id] .temporary true

/-- Loads lines in order, up to the first that fails. -/
def load (e : Engine Custom) : List FactLine → Except EngineError Unit × Engine Custom
  | [] => (.ok (), e)
  | line :: rest =>
    match e.loadLine line with
    | (.error failure, e) => (.error failure, e)
    | (.ok (), e) => e.load rest

end ScoredChaining.Engine
