import ScoredChaining.Pattern.Key
import ScoredChaining.Rule.Error
import ScoredChaining.Rule.JoinGraph

/-!
Compiling rules: checking the types of a rule against the schema, and turning it into patterns.

A rule becomes one pattern for each premise, rooted at that premise, so that a new fact is matched
whichever premise it satisfies. The pattern follows the tour of the join graph from the root:
entering a premise is a step onto a fact, entering a variable a step onto a node, and leaving
either a step back. What the tour does not cover, joins outside of it, repeated variables and
constants, is checked when the rule fires.
-/

namespace ScoredChaining

/-- The pattern of a rule from one premise. -/
structure CompiledPath where
  root : Nat
  keys : List Key
  /-- The premises in the order in which the pattern meets their facts. -/
  termOrder : List Nat
  deriving Repr, DecidableEq, Inhabited

/-- The types of variables, in the order in which they were first seen. -/
abbrev VariableTypes := List (String × TypeId)

/-- A rule whose types were checked, with its patterns. -/
structure CompiledRule where
  rule : Rule
  premiseRelations : List RelationId
  conclusionRelation : RelationId
  variableTypes : VariableTypes
  paths : List CompiledPath
  deriving Repr, DecidableEq, Inhabited

namespace CompiledRule

/-- The patterns as text, with the names of relations and types. -/
def pathTexts (r : CompiledRule) (s : Schema) : List String :=
  r.paths.map fun p => "[" ++ ", ".intercalate (p.keys.map (Key.text s)) ++ "]"

end CompiledRule

namespace Rule

/-- A term has as many arguments as its relation. -/
def checkArity (text : String) (t : Term) (relation : Relation) : Except RuleError Unit :=
  if t.args.length = relation.arity then .ok ()
  else .error (.arity text t.relation relation.arity t.args.length)

/-- Gives each variable at these positions the type of its position, which must be the type it has
already. -/
def bindTypes (text : String) (s : Schema) (t : Term) (relation : Relation) :
    List (Position × Arg) → VariableTypes → Except RuleError VariableTypes
  | [], types => .ok types
  | (_, .const _) :: rest, types => bindTypes text s t relation rest types
  | (p, .var name) :: rest, types =>
    match relation.typeAt? p with
    | none => .error (.arity text t.relation relation.arity t.args.length)
    | some type =>
      match types.lookup name with
      | none => bindTypes text s t relation rest (types ++ [(name, type)])
      | some known =>
        if known = type then bindTypes text s t relation rest types
        else .error (.typeMismatch text name (s.typeName known) (s.typeName type))

/-- The relations of the premises, and the types of their variables. -/
def typePremises (text : String) (s : Schema) :
    List Term → VariableTypes → Except RuleError (List RelationId × VariableTypes)
  | [], types => .ok ([], types)
  | t :: rest, types =>
    match s.find? t.relation with
    | none => .error (.unknownRelation text t.relation)
    | some id => do
      let relation ←
        match s.relation? id with
        | some relation => .ok relation
        | none => .error (.unknownRelation text t.relation)
      checkArity text t relation
      let types ← bindTypes text s t relation t.positions types
      let (ids, types) ← typePremises text s rest types
      return (id :: ids, types)

/-- Every variable of the conclusion has a type. -/
def checkBound (text : String) (types : VariableTypes) : List Arg → Except RuleError Unit
  | [] => .ok ()
  | .const _ :: rest => checkBound text types rest
  | .var name :: rest =>
    match types.lookup name with
    | some _ => checkBound text types rest
    | none => .error (.unboundVariable text name)

/-- The variables among the arguments have the declared types. -/
def checkConclusion (text : String) (s : Schema) (types : VariableTypes) :
    List Arg → List TypeId → Except RuleError Unit
  | .var name :: args, declared :: rest =>
    match types.lookup name with
    | none => .error (.unboundVariable text name)
    | some bound =>
      if bound = declared then checkConclusion text s types args rest
      else .error (.typeMismatch text name (s.typeName bound) (s.typeName declared))
  | .const _ :: args, _ :: rest => checkConclusion text s types args rest
  | _, _ => .ok ()

/-- The types of the arguments of a conclusion whose relation is not declared. -/
def inferConclusion (text relation : String) (types : VariableTypes) :
    List Arg → Except RuleError (List TypeId)
  | [] => .ok []
  | .const c :: _ => .error (.fault text (.untypedConstant c.text relation))
  | .var name :: rest =>
    match types.lookup name with
    | none => .error (.unboundVariable text name)
    | some type => (inferConclusion text relation types rest).map (type :: ·)

/-- The relation of the conclusion, which is declared with the types of its variables if it is
new. -/
def typeConclusion (text : String) (conclusion : Term) (types : VariableTypes) (s : Schema) :
    Except RuleError RelationId × Schema :=
  match s.find? conclusion.relation with
  | some id =>
    match s.relation? id with
    | none => (.error (.unknownRelation text conclusion.relation), s)
    | some relation =>
      match checkArity text conclusion relation with
      | .error e => (.error e, s)
      | .ok () =>
        match checkConclusion text s types conclusion.args relation.argTypes with
        | .error e => (.error e, s)
        | .ok () => (.ok id, s)
  | none =>
    match inferConclusion text conclusion.relation types conclusion.args with
    | .error e => (.error e, s)
    | .ok argTypes =>
      match s.declare conclusion.relation argTypes with
      | (.error e, s) => (.error (.schema e), s)
      | (.ok id, s) => (.ok id, s)

/-- The key of a step of the tour from the premise `root`. -/
def stepKey? (j : JoinGraph) (relations : List RelationId) (types : VariableTypes) (root : Nat) :
    TourStep → Option Key
  | .enter (.premise i) (.join k) => do
    let name ← j.joins[k]?
    let type ← types.lookup name
    let p ← j.placement? i k
    return .type type p
  | .enter (.join k) (.premise i) => do
    let relation ← relations[i]?
    let p ← j.placement? i k
    return .relation relation p
  | .enter _ _ => none
  | .leave v => if v = .premise root then none else some .parent

/-- The premise that a step enters. -/
def enteredPremise? : TourStep → Option Nat
  | .enter _ (.premise i) => some i
  | _ => none

/-- Drops the steps back at the end. -/
def dropReturns (keys : List Key) : List Key :=
  (keys.reverse.dropWhile (· == .parent)).reverse

/-- The pattern from one premise. It begins with a step from the witness onto the fact. -/
def pathFrom (j : JoinGraph) (relations : List RelationId) (types : VariableTypes) (root : Nat)
    (relation : RelationId) : CompiledPath :=
  let tour := j.tour root
  { root
    keys := dropReturns (.relation relation .head :: tour.filterMap (stepKey? j relations types root))
    termOrder := root :: tour.filterMap enteredPremise? }

/-- The patterns from the premises `root`, `root + 1` and so on, whose relations are given. Each
must meet every premise. -/
def pathsFrom (text : String) (j : JoinGraph) (relations : List RelationId)
    (types : VariableTypes) : (root : Nat) → List RelationId → Except RuleError (List CompiledPath)
  | _, [] => .ok []
  | root, relation :: rest =>
    let path := pathFrom j relations types root relation
    if path.termOrder.length ≠ j.premises.length then .error (.disconnected text)
    else (pathsFrom text j relations types (root + 1) rest).map (path :: ·)

/-- Checks a rule against the schema and turns it into patterns. A conclusion whose relation is new
declares it. -/
def compile (rule : Rule) (s : Schema) : Except RuleError CompiledRule × Schema :=
  let text := rule.text
  match typePremises text s rule.premises [] with
  | .error e => (.error e, s)
  | .ok (premiseRelations, variableTypes) =>
    match checkBound text variableTypes rule.conclusion.args with
    | .error e => (.error e, s)
    | .ok () =>
      match typeConclusion text rule.conclusion variableTypes s with
      | (.error e, s) => (.error e, s)
      | (.ok conclusionRelation, s) =>
        let j := JoinGraph.ofPremises rule.premises
        match pathsFrom text j premiseRelations variableTypes 0 premiseRelations with
        | .error e => (.error e, s)
        | .ok paths =>
          (.ok { rule, premiseRelations, conclusionRelation, variableTypes, paths }, s)

end Rule

end ScoredChaining
