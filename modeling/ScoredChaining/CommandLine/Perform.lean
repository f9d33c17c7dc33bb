import ScoredChaining.CommandLine.Help
import ScoredChaining.CommandLine.Report
import ScoredChaining.Document.Split
import ScoredChaining.Engine.Load
import ScoredChaining.Files

/-!
What the program does: what it prints, and how it ends. What was printed before a failure stays
printed.
-/

namespace ScoredChaining.CommandLine

/-- How the program ends. -/
inductive Ending where
  | done
  | misused (error : UsageError)
  | failed (error : EngineError)
  /-- The settings have no text. -/
  | unprintable
  | outOfFuel

/-- What the program prints, and how it ends. -/
structure Result where
  output : String
  ending : Ending

/-- The exit code. -/
def Ending.code : Ending → Nat
  | .done => 0
  | .misused _ => 2
  | _ => 1

namespace Result

/-- Prints a text and ends. -/
def print (output : String) : Result :=
  ⟨output, .done⟩

/-- Fails before anything is printed. -/
def fail (error : EngineError) : Result :=
  ⟨"", .failed error⟩

/-- Prints a text before what else is printed. -/
def after (output : String) (r : Result) : Result :=
  { r with output := output ++ r.output }

end Result

/-! ### Runs -/

/-- The settings of a run: the options go before the settings file, and the group constraints of
both are used. -/
def RunOptions.settings (o : RunOptions) (s : Settings) : Settings :=
  { s with
    priority := o.priority.getD s.priority
    threshold := o.threshold.getD s.threshold
    maxPops := o.maxPops.or s.maxPops
    mode := if o.oracle then .oracle else s.mode
    decisions := s.decisions ++ o.decisions }

/-- Loads and runs a document. -/
def runDocument (trajectory : Bool) (fuel : Nat) (e : Engine) (d : Document) :
    Except Ending DocumentReport × Engine :=
  match e.load d.lines with
  | (.error failure, e) => (.error (.failed failure), e)
  | (.ok (), e) =>
    let run := e.run e.settings.mode fuel
    let report := DocumentReport.ofEngine d.id run.engine (run.stats e.stats)
      (if trajectory then some run.steps else none)
    match run.ending with
    | .exhausted | .limited => (.ok report, run.engine)
    | .failed failure => (.error (.failed failure), run.engine)
    | .outOfFuel => (.error .outOfFuel, run.engine)

/-- Runs documents one after the other, forgetting each before the next. -/
def runDocuments (o : RunOptions) (fuel : Nat) : Engine → List Document → Result
  | _, [] => .print ""
  | e, d :: rest =>
    match runDocument o.trajectory fuel e d with
    | (.error ending, _) => ⟨"", ending⟩
    | (.ok report, e) => (runDocuments o fuel e.clearDocument rest).after (report.render o.json)

/-- An engine with what all documents share: the lines before them, the rules and the group
constraints. -/
def prepare (files : FileReader) (rules : String) (e : Engine) (shared : List FactLine) :
    Except EngineError Engine := do
  let (loaded, e) := e.load shared
  loaded
  let rules ← (Rule.ofFile files rules).mapError .rule
  let (added, e) := e.addRules rules
  let _ ← added
  let (installed, e) := e.installGroups
  installed
  return e

/-- Runs the documents of a fact file. -/
def runFiles (files : FileReader) (fuel : Nat) (settings : Settings) (o : RunOptions) : Result :=
  let prepared : Except EngineError (Engine × List Document) := do
    let e ← Engine.new (o.settings settings)
    let lines ← (FactLine.ofFile files o.facts).mapError .document
    let (shared, documents) := Document.split lines
    return (← prepare files o.rules e shared, documents)
  match prepared with
  | .error failure => .fail failure
  | .ok (e, documents) => runDocuments o fuel e documents

/-! ### Rules -/

/-- A rule and its patterns, one on a line. -/
def ruleText (rule : CompiledRule) (s : Schema) : String :=
  rule.rule.text ++ "\n" ++ String.join ((rule.pathTexts s).map fun path => "  " ++ path ++ "\n")

/-- Adds rules and prints each, and then the size of the tree of their patterns. -/
def showRules : Engine → List Rule → Result
  | e, [] => .print ("trie nodes: " ++ toString e.trie.size ++ "\n")
  | e, rule :: rest =>
    match e.addRule rule e.scorer with
    | (.error failure, _) => .fail failure
    | (.ok compiled, e) => (showRules e rest).after (ruleText compiled e.graph.schema)

/-- Shows the rules of a rule file, with the declarations of a fact file. -/
def listRules (files : FileReader) (settings : Settings) (factsPath rulesPath : String) : Result :=
  let prepared : Except EngineError (Engine × List Rule) := do
    let e ← Engine.new settings
    let lines ← (FactLine.ofFile files factsPath).mapError .document
    let declarations := lines.filter fun
      | .declaration _ _ => true
      | _ => false
    let (loaded, e) := e.load declarations
    loaded
    return (e, ← (Rule.ofFile files rulesPath).mapError .rule)
  match prepared with
  | .error failure => .fail failure
  | .ok (e, rules) => showRules e rules

/-! ### All commands -/

/-- Performs a command with these settings. -/
def Command.perform (files : FileReader) (fuel : Nat) (settings : Settings) : Command → Result
  | .run options => runFiles files fuel settings options
  | .rules factsPath rulesPath => listRules files settings factsPath rulesPath
  | .config =>
    match settings.text? with
    | some text => .print text
    | none => ⟨"", .unprintable⟩

/-- Does what is asked for. A run takes at most `fuel` candidates from each document. -/
def Request.answer (files : FileReader) (fuel : Nat) : Request → Result
  | .help topic => .print topic.text
  | .version => .print versionText
  | .perform none command => command.perform files fuel .usual
  | .perform (some path) command =>
    match Settings.ofFile files path with
    | .error failure => .fail (.settings failure)
    | .ok settings => command.perform files fuel settings

/-- Does what the arguments ask for. -/
def perform (files : FileReader) (fuel : Nat) (arguments : List String) : Result :=
  match Request.read arguments with
  | .error error => ⟨"", .misused error⟩
  | .ok request => request.answer files fuel

end ScoredChaining.CommandLine
