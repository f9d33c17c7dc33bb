import ScoredChaining.Pattern.Walk
import ScoredChaining.Rule.Compiled
import ScoredChaining.Score

/-!
Firing rules: from the facts that completed a pattern to a new candidate.

The pattern has checked only what its walk covers. `unify` checks the rest: every variable denotes
one node wherever it stands, and every constant is the value of its node.
-/

namespace ScoredChaining

/-- Scores the conclusions of a rule. -/
abbrev Scorer := Graph → Edge → Score

/-- Every conclusion has the same score. -/
def Scorer.constant (x : Float) : Scorer :=
  fun _ _ => .constant x

/-- A conclusion with its score. -/
structure Proposal where
  edge : EdgeId
  score : Score
  deriving Inhabited

/-- A rule at one of its patterns. -/
structure RuleGenerator where
  rule : CompiledRule
  path : CompiledPath
  scorer : Scorer

namespace RuleGenerator

/-- The text of the rule and the premise at which the pattern is rooted. -/
def name (r : RuleGenerator) : String :=
  r.rule.rule.text ++ " @" ++ toString r.path.root

/-- What the variables denote. -/
abbrev Environment := List (String × NodeId)

/-- Extends the environment by a fact for a term, given the positions of the term. No environment
comes out if a variable denotes another node already or a constant has another value. -/
def unifyTerm (g : Graph) (e : Edge) :
    List (Position × Arg) → Environment → Except StoreError (Option Environment)
  | [], env => .ok (some env)
  | (p, a) :: rest, env =>
    match e.nodeAt? p with
    | none => .ok none
    | some n =>
      match a with
      | .var name =>
        match env.lookup name with
        | some known => if known = n then unifyTerm g e rest env else .ok none
        | none => unifyTerm g e rest (env ++ [(name, n)])
      | .const c =>
        match g.valueOf n with
        | .error failure => .error failure
        | .ok v => if v = c then unifyTerm g e rest env else .ok none

/-- Extends the environment by the facts for the premises, paired in order. -/
def unify (g : Graph) (premises : List Term) :
    List (EdgeId × Nat) → Environment → Except StoreError (Option Environment)
  | [], env => .ok (some env)
  | (id, i) :: rest, env =>
    match g.edge id with
    | .error failure => .error failure
    | .ok e =>
      match premises[i]? with
      | none => .ok none
      | some t =>
        match unifyTerm g e t.positions env with
        | .error failure => .error failure
        | .ok none => .ok none
        | .ok (some env) => unify g premises rest env

/-- The nodes of the conclusion's arguments. Constants are interned with the declared types. -/
def conclusionNodes (rule : String) (env : Environment) :
    List Arg → List TypeId → Graph → Except RuleError (List NodeId) × Graph
  | .var name :: args, _ :: types, g =>
    match env.lookup name with
    | none => (.error (.unboundVariable rule name), g)
    | some n =>
      match conclusionNodes rule env args types g with
      | (.error e, g) => (.error e, g)
      | (.ok ns, g) => (.ok (n :: ns), g)
  | .const c :: args, type :: types, g =>
    match g.internNode type c .temporary with
    | (.error e, g) => (.error (.store e), g)
    | (.ok n, g) =>
      match conclusionNodes rule env args types g with
      | (.error e, g) => (.error e, g)
      | (.ok ns, g) => (.ok (n :: ns), g)
  | _, _, g => (.ok [], g)

/-- The facts among the bindings, in order. -/
def boundEdges (bindings : List Binding) : List EdgeId :=
  bindings.filterMap fun b =>
    match b.key with
    | .relation _ _ => b.vertex.edge?
    | _ => none

/-- The conclusion for an environment, and its score. -/
def conclude (r : RuleGenerator) (env : Environment) (g : Graph) :
    Except RuleError (List Proposal) × Graph :=
  let relation := r.rule.conclusionRelation
  match g.relation relation with
  | .error e => (.error (.store e), g)
  | .ok signature =>
    match conclusionNodes r.rule.rule.text env r.rule.rule.conclusion.args signature.argTypes g with
    | (.error e, g) => (.error e, g)
    | (.ok tail, g) =>
      match g.makeEdge relation tail .temporary with
      | (.error e, g) => (.error (.store e), g)
      | (.ok id, g) =>
        match g.edge id with
        | .error e => (.error (.store e), g)
        | .ok e => (.ok [⟨id, r.scorer g e⟩], g)

/-- The candidates for the vertices that completed the pattern: the conclusion of the rule, if the
facts among them satisfy its premises. -/
def generate (r : RuleGenerator) (bindings : List Binding) (g : Graph) :
    Except RuleError (List Proposal) × Graph :=
  let edges := boundEdges bindings
  if edges.length ≠ r.path.termOrder.length then (.ok [], g)
  else
    match unify g r.rule.rule.premises (edges.zip r.path.termOrder) [] with
    | .error e => (.error (.store e), g)
    | .ok none => (.ok [], g)
    | .ok (some env) => r.conclude env g

end RuleGenerator

end ScoredChaining
