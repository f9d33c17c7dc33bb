import ScoredChaining.Engine.Run
import ScoredChaining.Json.Basic

/-!
What is reported of a document: its facts, how the run went, and how well it agrees with the gold
facts, as lines of text or as JSON with the keys of every object in order.
-/

namespace ScoredChaining

/-- The name of an outcome. -/
def Outcome.name : Outcome → String
  | .committed => "commit"
  | .rejected => "reject"
  | .alreadyCommitted => "already-committed"

namespace CommandLine

/-- What is reported of one candidate. -/
structure StepReport where
  fact : String
  score : Float
  label : Label
  predicted : Option Bool
  outcome : Outcome

/-- What is reported of one document. -/
structure DocumentReport where
  id : Option String
  /-- The committed facts of the document, in order. -/
  facts : List String
  stats : RunStats
  /-- The agreement with the gold facts, if there are any. -/
  tally : Option Tally
  /-- The candidates, if they are wanted. -/
  steps : Option (List StepReport)

namespace StepReport

/-- The report of a step, whose fact is in the graph. -/
def ofStep (g : Graph) (s : Step) : StepReport :=
  ⟨g.factText s.edge, s.score.value, s.label, s.predicted, s.outcome⟩

/-- The step as a line. -/
def line (s : StepReport) : String :=
  "# step " ++ s.fact ++ " score=" ++ Decimal.fixed 3 s.score ++ " label=" ++ s.label.name ++ " " ++
    s.outcome.name ++ "\n"

/-- The step in JSON. -/
def json (s : StepReport) : Json :=
  .object [("fact", .str s.fact), ("label", .str s.label.name), ("outcome", .str s.outcome.name),
    ("predicted", Json.ofOption .bool s.predicted), ("score", Json.ofFloat s.score)]

end StepReport

/-- The counts of a tally in JSON. -/
def tallyJson (t : Tally) : Json :=
  .object [("fn", Json.ofNat t.falseNegatives), ("fp", Json.ofNat t.falsePositives),
    ("tp", Json.ofNat t.truePositives)]

/-- The counts of a run in JSON. -/
def statsJson (s : RunStats) : Json :=
  .object [("commits", Json.ofNat s.commits), ("duplicates", Json.ofNat s.duplicates),
    ("generated", Json.ofNat s.generated), ("hit_pop_limit", .bool s.hitPopLimit),
    ("matches", Json.ofNat s.matched), ("pops", Json.ofNat s.pops),
    ("rejects", Json.ofNat s.rejects), ("rule_firings", Json.ofNat s.firings),
    ("undecided", Json.ofNat s.undecided)]

namespace DocumentReport

/-- The report of the document that an engine has worked on. -/
def ofEngine (id : Option String) (e : Engine) (stats : RunStats) (steps : Option (List Step)) :
    DocumentReport where
  id := id
  facts := e.committedFacts.map e.graph.factText
  stats := stats
  tally := if e.labels.isEmpty then none else some e.tally
  steps := steps.map fun steps => steps.map (StepReport.ofStep e.graph)

/-- The report as lines. -/
def text (r : DocumentReport) : String :=
  "# doc " ++ r.id.getD "-" ++ "\n" ++
    String.join ((r.steps.getD []).map StepReport.line) ++
    String.join (r.facts.map fun fact => fact ++ "\n") ++
    match r.tally with
    | none => ""
    | some t => "# perf " ++ t.text ++ "\n"

/-- The report in JSON. -/
def json (r : DocumentReport) : Json :=
  let steps :=
    match r.steps with
    | none => []
    | some steps => [("steps", Json.array (steps.map StepReport.json))]
  .object ([("doc", Json.ofOption .str r.id), ("facts", .array (r.facts.map .str)),
    ("perf", Json.ofOption tallyJson r.tally), ("stats", statsJson r.stats)] ++ steps)

/-- The report as it is printed. -/
def render (asJson : Bool) (r : DocumentReport) : String :=
  if asJson then r.json.render ++ "\n" else r.text

end DocumentReport

end CommandLine

end ScoredChaining
