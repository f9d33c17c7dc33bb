import ScoredChaining.Graph.Facts

/-!
Failures of reading, compiling and firing rules.
-/

namespace ScoredChaining

/-- What is wrong with the text of a rule. -/
inductive RuleFault where
  | missingArrow
  | secondArrow
  | malformedTerm (term : String)
  | badArgument (argument : String)
  /-- The first argument of a primed term is not a variable. -/
  | missingFactVariable (relation : String)
  | primedConclusion
  /-- A constant stands in a conclusion whose relation is not declared. -/
  | untypedConstant (constant relation : String)
  deriving Repr, DecidableEq

/-- The wording of a fault. -/
def RuleFault.message : RuleFault → String
  | .missingArrow => "missing '=>'"
  | .secondArrow => "more than one '=>'"
  | .malformedTerm term => "malformed term '" ++ term ++ "'"
  | .badArgument argument => "bad argument '" ++ argument ++ "'"
  | .missingFactVariable relation =>
    "primed term " ++ relation ++ "' must start with a fact variable"
  | .primedConclusion => "the conclusion cannot be primed"
  | .untypedConstant constant relation =>
    "cannot infer the type of constant " ++ constant ++ " in undeclared relation " ++ relation

/-- Failures of rules. Each names the rule by its text. -/
inductive RuleError where
  | fault (rule : String) (cause : RuleFault)
  | unknownRelation (rule relation : String)
  | arity (rule relation : String) (expected actual : Nat)
  /-- A variable stands at positions of different types. -/
  | typeMismatch (rule name first second : String)
  | unboundVariable (rule name : String)
  /-- The premises do not hang together by shared variables. -/
  | disconnected (rule : String)
  | unreadable (path : String) (cause : SystemError)
  | store (error : StoreError)
  | schema (error : SchemaError)
  deriving DecidableEq

/-- The wording of a rule failure. -/
def RuleError.diagnostic : RuleError → Diagnostic
  | .fault rule cause =>
    .of "rule" "parse" ("rule parse error in '" ++ rule ++ "': " ++ cause.message)
      ("Rules look like `a(x,y) & b(y,z) => c(x,z)`. A primed term `a'(f,x,y)` binds f to the fact " ++
        "itself and may only appear on the left-hand side.")
  | .unknownRelation rule relation =>
    .of "rule" "unknown_relation"
      ("rule '" ++ rule ++ "' mentions unknown relation \"" ++ relation ++ "\"")
      "Declare every left-hand-side relation before registering rules that use it."
  | .arity rule relation expected actual =>
    .of "rule" "arity"
      ("rule '" ++ rule ++ "': " ++ relation ++ " takes " ++ toString expected ++
        " arguments, got " ++ toString actual)
      "Each term must have exactly one argument per relation argument."
  | .typeMismatch rule name first second =>
    .of "rule" "type_mismatch"
      ("rule '" ++ rule ++ "': variable " ++ name ++ " is used as both " ++ first ++ " and " ++
        second)
      "A variable joins argument positions, so every position must share one node type."
  | .unboundVariable rule name =>
    .of "rule" "unbound_variable"
      ("rule '" ++ rule ++ "': right-hand side variable " ++ name ++
        " is not bound on the left-hand side")
      "Every variable in the conclusion must appear in at least one premise."
  | .disconnected rule =>
    .of "rule" "disconnected"
      ("rule '" ++ rule ++ "': premises do not share variables and cannot be joined")
      ("The matcher walks from a newly committed fact through shared arguments, so all premises " ++
        "must be connected by shared variables.")
  | .unreadable path cause =>
    .of "rule" "io" ("failed to read rule file " ++ path ++ ": " ++ cause.message)
      "Check that the rule file exists and is readable."
  | .store error => error.diagnostic
  | .schema error => error.diagnostic

instance : Explained RuleError := ⟨RuleError.diagnostic⟩

end ScoredChaining
