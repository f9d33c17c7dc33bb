import ScoredChaining.Proofs.Engine.History

/-!
What is left of a rule that is rejected.

Premises and conclusion are checked first. Only then is a new relation of the conclusion declared,
and the paths are built last.

* `Rule.compile_error`: a rule that is not connected leaves the relation of its conclusion declared,
  and every other rule that is rejected leaves the schema as it was (`Rule.Rejects`).
* `Engine.readRule_error`: the same for an engine. Its patterns, its rules and everything else stay.
-/

namespace ScoredChaining

variable {Custom : Type} [Decider Custom]

namespace Rule

variable {s : Schema} {text : String} {types : VariableTypes} {failure : RuleError}

/-! ### Checks -/

theorem bindTypes_error {t : Term} {R : Relation} {ps : List (Position × Arg)}
    (failed : bindTypes text s t R ps types = .error failure) : failure ≠ .disconnected text := by
  induction ps generalizing types with
  | nil => cases failed
  | cons x rest ih =>
    obtain ⟨p, arg⟩ := x
    cases arg with
    | const c => exact ih (by rwa [bindTypes] at failed)
    | var name =>
      rw [bindTypes] at failed
      split at failed
      · cases failed
        simp
      · split at failed
        · exact ih failed
        · split at failed
          · exact ih failed
          · cases failed
            simp

theorem checkArity_error {t : Term} {R : Relation}
    (failed : checkArity text t R = .error failure) : failure ≠ .disconnected text := by
  unfold checkArity at failed
  split at failed
  · cases failed
  · cases failed
    simp

theorem typePremises_error {premises : List Term}
    (failed : typePremises text s premises types = .error failure) :
    failure ≠ .disconnected text := by
  induction premises generalizing types with
  | nil => cases failed
  | cons t rest ih =>
    rw [typePremises] at failed
    split at failed
    · cases failed
      simp
    · rename_i id found
      obtain ⟨R, isR, _⟩ := Schema.relation?_of_find? found
      simp only [isR, bind, Except.bind, pure, Except.pure] at failed
      split at failed
      · rename_i arity
        cases failed
        exact checkArity_error arity
      · split at failed
        · rename_i bound
          cases failed
          exact bindTypes_error bound
        · split at failed
          · rename_i typedRest
            cases failed
            exact ih typedRest
          · cases failed

theorem checkBound_error {args : List Arg} (failed : checkBound text types args = .error failure) :
    failure ≠ .disconnected text := by
  induction args with
  | nil => cases failed
  | cons arg rest ih =>
    cases arg with
    | const c => exact ih (by rwa [checkBound] at failed)
    | var name =>
      rw [checkBound] at failed
      split at failed
      · exact ih failed
      · cases failed
        simp

theorem checkConclusion_error {args : List Arg} {declared : List TypeId}
    (failed : checkConclusion text s types args declared = .error failure) :
    failure ≠ .disconnected text := by
  induction args generalizing declared with
  | nil => cases declared <;> cases failed
  | cons arg rest ih =>
    cases declared with
    | nil => cases arg <;> cases failed
    | cons type declared =>
      cases arg with
      | const c => exact ih (by rwa [checkConclusion] at failed)
      | var name =>
        rw [checkConclusion] at failed
        split at failed
        · cases failed
          simp
        · split at failed
          · exact ih failed
          · cases failed
            simp

theorem inferConclusion_error {relation : String} {args : List Arg}
    (failed : inferConclusion text relation types args = .error failure) :
    failure ≠ .disconnected text := by
  induction args with
  | nil => cases failed
  | cons arg rest ih =>
    cases arg with
    | const c =>
      cases failed
      simp
    | var name =>
      rw [inferConclusion] at failed
      split at failed
      · cases failed
        simp
      · cases inferred : inferConclusion text relation types rest with
        | error cause =>
          rw [inferred] at failed
          cases failed
          exact ih inferred
        | ok others => simp [inferred, Except.map] at failed

/-- What typing a conclusion comes to. The relation is declared only if the types of all its
arguments are known. -/
inductive TypesConclusion (text : String) (conclusion : Term) (types : VariableTypes) (s : Schema) :
    Except RuleError RelationId × Schema → Prop where
  | refused {failure : RuleError} (other : failure ≠ .disconnected text) :
    TypesConclusion text conclusion types s (.error failure, s)
  | known {id : RelationId} (declared : s.find? conclusion.relation = some id) :
    TypesConclusion text conclusion types s (.ok id, s)
  | new {id : RelationId} {argTypes : List TypeId}
    (undeclared : s.find? conclusion.relation = none)
    (inferred : inferConclusion text conclusion.relation types conclusion.args = .ok argTypes) :
    TypesConclusion text conclusion types s (.ok id, (s.declare conclusion.relation argTypes).2)

theorem typeConclusion_types (text : String) (conclusion : Term) (types : VariableTypes)
    (s : Schema) :
    TypesConclusion text conclusion types s (typeConclusion text conclusion types s) := by
  unfold typeConclusion
  cases found : s.find? conclusion.relation with
  | some id =>
    obtain ⟨R, isR, _⟩ := Schema.relation?_of_find? found
    simp only [isR]
    cases arity : checkArity text conclusion R with
    | error cause => exact .refused (checkArity_error arity)
    | ok =>
      simp only
      cases checked : checkConclusion text s types conclusion.args R.argTypes with
      | error cause => exact .refused (checkConclusion_error checked)
      | ok => exact .known found
  | none =>
    simp only
    cases inferred : inferConclusion text conclusion.relation types conclusion.args with
    | error cause => exact .refused (inferConclusion_error inferred)
    | ok argTypes =>
      -- a name that no relation has can be declared
      obtain ⟨id, declared⟩ : ∃ id, (s.declare conclusion.relation argTypes).1 = .ok id := by
        rw [Schema.declare, found]
        exact ⟨_, rfl⟩
      have types : TypesConclusion text conclusion types s
          (.ok id, (s.declare conclusion.relation argTypes).2) := .new found inferred
      simp only
      generalize s.declare conclusion.relation argTypes = answer at declared types
      obtain ⟨result, s'⟩ := answer
      obtain rfl : result = .ok id := declared
      exact types

/-! ### Compiling -/

theorem pathsFrom_error {j : JoinGraph} {relations rest : List RelationId} {root : Nat}
    (failed : pathsFrom text j relations types root rest = .error failure) :
    failure = .disconnected text := by
  induction rest generalizing root with
  | nil => cases failed
  | cons relation rest ih =>
    rw [pathsFrom] at failed
    split at failed
    · exact (Except.error.inj failed).symm
    · cases later : pathsFrom text j relations types (root + 1) rest with
      | error cause =>
        rw [later] at failed
        obtain rfl := Except.error.inj failed
        exact ih later
      | ok paths => simp [later, Except.map] at failed

/-- What is left of a schema after a rule was rejected. -/
inductive Rejects (rule : Rule) (s : Schema) : RuleError → Schema → Prop where
  /-- The rule has a fault other than that it is not connected, or its conclusion is declared. -/
  | untouched {failure : RuleError}
    (checked :
      failure = .disconnected rule.text → ∃ id, s.find? rule.conclusion.relation = some id) :
    Rejects rule s failure s
  /-- The rule is not connected, and all that was declared is its conclusion. -/
  | declared {ids : List RelationId} {types : VariableTypes} {argTypes : List TypeId}
    (undeclared : s.find? rule.conclusion.relation = none)
    (typed : typePremises rule.text s rule.premises [] = .ok (ids, types))
    (inferred : inferConclusion rule.text rule.conclusion.relation types rule.conclusion.args =
      .ok argTypes) :
    Rejects rule s (.disconnected rule.text) (s.declare rule.conclusion.relation argTypes).2

theorem compile_error {rule : Rule} (failed : (rule.compile s).1 = .error failure) :
    rule.Rejects s failure (rule.compile s).2 := by
  unfold compile at failed ⊢
  cases typed : typePremises rule.text s rule.premises [] with
  | error cause =>
    simp only [typed] at failed ⊢
    obtain rfl := Except.error.inj failed
    exact .untouched fun same => absurd same (typePremises_error typed)
  | ok result =>
    obtain ⟨ids, types⟩ := result
    simp only [typed] at failed ⊢
    cases bound : checkBound rule.text types rule.conclusion.args with
    | error cause =>
      simp only [bound] at failed ⊢
      obtain rfl := Except.error.inj failed
      exact .untouched fun same => absurd same (checkBound_error bound)
    | ok =>
      simp only [bound] at failed ⊢
      have concluded := typeConclusion_types rule.text rule.conclusion types s
      generalize typeConclusion rule.text rule.conclusion types s = answer at concluded failed
      cases concluded with
      | refused other =>
        obtain rfl := Except.error.inj failed
        exact .untouched fun same => absurd same other
      | known declared =>
        simp only at failed ⊢
        split at failed
        · exact .untouched fun _ => ⟨_, declared⟩
        · cases failed
      | new undeclared inferred =>
        simp only at failed ⊢
        split at failed
        · rename_i broken
          obtain rfl := Except.error.inj failed
          rw [pathsFrom_error broken]
          exact .declared undeclared typed inferred
        · cases failed

end Rule

namespace Engine

/-- A text that is rejected as a rule leaves everything as it was, if it cannot be read. If it can,
all that changes is the schema, as `Rule.Rejects` has it. -/
theorem readRule_error {e : Engine Custom} {text : String} {scorer : Scorer} {failure : EngineError}
    (failed : (e.readRule text scorer).1 = .error failure) :
    ∃ cause, failure = .rule cause ∧
      (Rule.read text = .error cause ∧ (e.readRule text scorer).2 = e ∨
        ∃ rule schema, Rule.read text = .ok rule ∧ rule.Rejects e.graph.schema cause schema ∧
          (e.readRule text scorer).2 = { e with graph := { e.graph with schema } }) := by
  unfold readRule at failed ⊢
  cases isRule : Rule.read text with
  | error cause =>
    rw [isRule] at failed
    exact ⟨cause, (Except.error.inj failed).symm, .inl ⟨rfl, rfl⟩⟩
  | ok rule =>
    simp only [isRule, addRule] at failed ⊢
    have rejects := fun cause => @Rule.compile_error e.graph.schema cause rule
    generalize rule.compile e.graph.schema = answer at rejects failed ⊢
    obtain ⟨cause | compiled, schema⟩ := answer
    · exact ⟨cause, (Except.error.inj failed).symm,
        .inr ⟨rule, schema, rfl, rejects cause rfl, rfl⟩⟩
    · cases failed

/-- Two links that share no point. -/
def apartText : String :=
  "link(x,y) & link(z,w) => apart(x,w)"

theorem readRule_error_apart :
    ∃ failure, (linkable.readRule apartText (.constant 1.0)).1 = .error failure ∧
    ∃ cause, failure = .rule cause ∧
      (Rule.read apartText = .error cause ∧
          (linkable.readRule apartText (.constant 1.0)).2 = linkable ∨
        ∃ rule schema, Rule.read apartText = .ok rule ∧
          rule.Rejects linkable.graph.schema cause schema ∧
          (linkable.readRule apartText (.constant 1.0)).2 =
            { linkable with graph := { linkable.graph with schema } }) := by
  have rejected : (linkable.readRule apartText (.constant 1.0)).1.isOk = false := by
    decide +kernel
  cases answer : (linkable.readRule apartText (.constant 1.0)).1 with
  | ok compiled => simp [answer, Except.isOk, Except.toBool] at rejected
  | error failure => exact ⟨failure, rfl, readRule_error answer⟩

/-- The rejected rule leaves its conclusion declared, so a declaration that would have succeeded
fails. -/
theorem not_traceless_apart :
    ¬∀ e : Engine, Reachable e → ∀ text scorer,
      (e.readRule text scorer).1.isOk = false →
        (e.readRule text scorer).2.graph.schema = e.graph.schema ∧
          ∀ name types,
            ((e.readRule text scorer).2.declare name types).1 = (e.declare name types).1 := by
  intro traceless
  have rejected : (linkable.readRule apartText (.constant 1.0)).1.isOk = false := by
    decide +kernel
  obtain ⟨_, same⟩ := traceless linkable reachable_linkable apartText (.constant 1.0) rejected
  have declares : (linkable.declare "apart" ["point"]).1.isOk = true := by decide +kernel
  have refuses : ((linkable.readRule apartText (.constant 1.0)).2.declare
      "apart" ["point"]).1.isOk = false := by
    decide +kernel
  rw [same, declares] at refuses
  cases refuses

end Engine

end ScoredChaining
