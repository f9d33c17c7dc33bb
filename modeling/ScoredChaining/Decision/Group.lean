import ScoredChaining.Graph.Facts
import ScoredChaining.Rule.Reader

/-!
Group constraints: how many facts of a relation may share the nodes at given arguments.

The facts with the same nodes at these arguments are a group. Candidates come off the agenda best
first, so the first one that a constraint sees of a group is the best of it.

A constraint is written `MODE:r(x,y,z):x:y`, with the arguments that make the group named after a
term of the relation.
-/

namespace ScoredChaining

/-- How many facts of a group are wanted. -/
inductive GroupMode where
  | atLeastOne
  | atMostOne
  | exactlyOne
  deriving Repr, DecidableEq, Inhabited

namespace GroupMode

/-- The name of the mode. -/
def name : GroupMode → String
  | .atLeastOne => "AT_LEAST_ONE"
  | .atMostOne => "AT_MOST_ONE"
  | .exactlyOne => "EXACTLY_ONE"

/-- The mode with this name. -/
def byName? (name : String) : Option GroupMode :=
  [atLeastOne, atMostOne, exactlyOne].find? fun m => m.name == name

end GroupMode

/-- What is wrong with a group constraint. -/
inductive GroupFault where
  | missingColon
  | unknownMode (mode : String)
  /-- The term in `description` has a fault. -/
  | badTerm (description : String) (cause : RuleFault)
  | unknownRelation (name : String)
  | arity (relation : String) (expected : Nat)
  | noSuchArgument (name term : String)
  | noKey
  | tooManyKeys (atMost : Nat) (relation : String)
  | keyOutOfRange (relation : String) (key : Nat)
  | repeatedKey (key : Nat)
  deriving Repr, DecidableEq

/-- The wording of a fault. -/
def GroupFault.message : GroupFault → String
  | .missingColon => "expected MODE:term:arg"
  | .unknownMode mode => "unknown mode " ++ mode
  | .badTerm description cause => (RuleError.fault description cause).diagnostic.message
  | .unknownRelation name => "no relation named " ++ name
  | .arity relation expected => relation ++ " takes " ++ toString expected ++ " arguments"
  | .noSuchArgument name term => "no argument named " ++ name ++ " in " ++ term
  | .noKey => "at least one key argument is required"
  | .tooManyKeys atMost relation =>
    "at most " ++ toString atMost ++ " key arguments for " ++ relation
  | .keyOutOfRange relation key => relation ++ " has no argument " ++ toString key
  | .repeatedKey key => "key argument " ++ toString key ++ " is repeated"

/-- Failures of decisions. -/
inductive DecisionError where
  | malformed (description : String) (cause : GroupFault)
  /-- Two members of a committee gave different answers about a fact. -/
  | disagreement (edge : Edge) (first : String) (firstAnswer : Bool) (second : String)
      (secondAnswer : Bool)
  deriving DecidableEq

/-- A node's number with its parts named. -/
def NodeId.fieldsText (n : NodeId) : String :=
  "NodeId \x7b partition: " ++ n.partition.name ++ ", index: " ++ toString n.index ++ " \x7d"

/-- A fact by the number of its relation and of its arguments. -/
def Edge.numbersText (e : Edge) : String :=
  e.relation.text ++ "[" ++ ", ".intercalate (e.tail.map NodeId.fieldsText) ++ "]"

/-- The text of an answer. -/
def answerText (answer : Bool) : String :=
  if answer then "true" else "false"

/-- The wording of a decision failure. -/
def DecisionError.diagnostic : DecisionError → Diagnostic
  | .malformed description cause =>
    .of "decision" "parse"
      ("cannot parse decision function '" ++ description ++ "': " ++ cause.message)
      ("Group constraints look like `MODE:rel(a,b,c):a:c` where MODE is one of AT_LEAST_ONE, " ++
        "AT_MOST_ONE, EXACTLY_ONE.")
  | .disagreement edge first firstAnswer second secondAnswer =>
    .of "decision" "disagreement"
      ("decision functions disagree on " ++ edge.numbersText ++ ": " ++ first ++ " said " ++
        answerText firstAnswer ++ ", " ++ second ++ " said " ++ answerText secondAnswer)
      "A unanimous committee requires all applicable members to agree."

instance : Explained DecisionError := ⟨DecisionError.diagnostic⟩

/-- The nodes that a fact has at the key arguments. -/
abbrev GroupKey := List (Option NodeId)

/-- A group constraint and the groups it has recorded. -/
structure Group where
  mode : GroupMode
  relation : RelationId
  keyArgs : List Nat
  seen : List GroupKey
  label : String
  deriving Repr, DecidableEq

namespace Group

/-- The first of the key arguments that the relation does not have or that repeats an earlier
one. -/
def keyFault? (relation : Relation) : (earlier : List Nat) → List Nat → Option GroupFault
  | _, [] => none
  | earlier, k :: rest =>
    if relation.arity ≤ k then some (.keyOutOfRange relation.name k)
    else if earlier.contains k then some (.repeatedKey k)
    else keyFault? relation (k :: earlier) rest

/-- The text of a list of argument numbers. -/
def keysText (keyArgs : List Nat) : String :=
  "[" ++ ", ".intercalate (keyArgs.map toString) ++ "]"

/-- The label of a constraint that was not read from text. -/
def defaultLabel (mode : GroupMode) (relation : String) (keyArgs : List Nat) : String :=
  mode.name ++ ":" ++ relation ++ ":" ++ keysText keyArgs

/-- The constraint over groups that share these arguments. At least one argument of the relation
is not among them, and none is repeated. -/
def make (mode : GroupMode) (id : RelationId) (keyArgs : List Nat) (relation : Relation) :
    Except DecisionError Group :=
  let label := defaultLabel mode relation.name keyArgs
  if relation.arity ≤ keyArgs.length then
    .error (.malformed label (.tooManyKeys (relation.arity - 1) relation.name))
  else
    match keyFault? relation [] keyArgs with
    | some fault => .error (.malformed label fault)
    | none => .ok ⟨mode, id, keyArgs, [], label⟩

/-- The numbers of the named arguments of a term. -/
def keysByName (t : Term) : List (List Char) → Except GroupFault (List Nat)
  | [] => .ok []
  | name :: rest =>
    let name := String.ofList (Text.trim name)
    match t.args.findIdx? (· == .var name) with
    | none => .error (.noSuchArgument name t.text)
    | some k => (keysByName t rest).map (k :: ·)

/-- The mode, the term and the names of the arguments in a description. -/
def readParts (description : String) :
    Except GroupFault (GroupMode × Term × List (List Char)) :=
  match Text.cut [':'] (Text.trim description.toList) with
  | none => .error .missingColon
  | some (mode, rest) =>
    match GroupMode.byName? (String.ofList (Text.trim mode)) with
    | none => .error (.unknownMode (String.ofList mode))
    | some groupMode =>
      let parts := Text.pieces ':' rest
      match Term.read (parts.headD []) with
      | .error fault => .error (.badTerm description fault)
      | .ok t => .ok (groupMode, t, parts.tail)

/-- The relation of a term, which has as many arguments. -/
def resolveTerm (t : Term) (s : Schema) : Except GroupFault (RelationId × Relation) :=
  match s.find? t.relation with
  | none => .error (.unknownRelation t.relation)
  | some id =>
    match s.relation? id with
    | none => .error (.unknownRelation t.relation)
    | some relation =>
      if t.args.length = relation.arity then .ok (id, relation)
      else .error (.arity t.relation relation.arity)

/-- What a description says. -/
def readKeys (description : String) (s : Schema) :
    Except GroupFault (GroupMode × RelationId × Relation × List Nat) := do
  let (mode, t, names) ← readParts description
  let (id, relation) ← resolveTerm t s
  let keyArgs ← keysByName t names
  if keyArgs = [] then throw .noKey
  return (mode, id, relation, keyArgs)

/-- The constraint with this description, which becomes its label. -/
def read (description : String) (s : Schema) : Except DecisionError Group :=
  match readKeys description s with
  | .error fault => .error (.malformed description fault)
  | .ok (mode, id, relation, keyArgs) =>
    (make mode id keyArgs relation).map fun g =>
      { g with label := Text.trimString description }

/-- The group of a fact. -/
def key (g : Group) (e : Edge) : GroupKey :=
  g.keyArgs.map fun k => e.tail[k]?

/-- Records a group. -/
def record (g : Group) (k : GroupKey) : Group :=
  if g.seen.contains k then g else { g with seen := k :: g.seen }

/-- The answer about a candidate. Where a group must have a fact, the first candidate of it is
accepted and the others are refused. Where it may have one at most, candidates are refused once a
fact was committed, and nothing is said before. -/
def decide (g : Group) (e : Edge) : Option Bool × Group :=
  if e.relation ≠ g.relation then (none, g)
  else
    let k := g.key e
    match g.mode with
    | .atLeastOne | .exactlyOne => (some (!g.seen.contains k), g.record k)
    | .atMostOne => (if g.seen.contains k then some false else none, g)

/-- Takes note of a committed fact, where a group may have one at most. -/
def committed (g : Group) (e : Edge) : Group :=
  if g.mode = .atMostOne && e.relation = g.relation then g.record (g.key e) else g

/-- Forgets the recorded groups. -/
def clear (g : Group) : Group :=
  { g with seen := [] }

end Group

end ScoredChaining
