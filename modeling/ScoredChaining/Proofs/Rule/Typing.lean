import Mathlib.Data.List.Forall2
import ScoredChaining.Proofs.Graph.Names
import ScoredChaining.Rule.Compiled

/-!
What a compiled rule is known to satisfy.

* `CompiledRule.Typed`: every premise fits its relation, every variable has one type wherever it
  stands, the conclusion is made of typed variables and constants, and there is one path from every
  premise, which meets every premise.
* `Rule.compile_typed`: a rule that compiles is typed, over the schema that compiling leaves.
* `Rule.compile_schema`: compiling extends the schema, also when it fails.
-/

namespace ScoredChaining

/-- A term fits the relation with this number, and its variables have these types. -/
def Term.Typed (s : Schema) (types : VariableTypes) (t : Term) (id : RelationId) : Prop :=
  ∃ R, s.find? t.relation = some id ∧ s.relation? id = some R ∧ t.args.length = R.arity ∧
    ∀ p name, (p, .var name) ∈ t.positions →
      ∃ type, R.typeAt? p = some type ∧ types.lookup name = some type

/-- The arguments of a conclusion fit these types. -/
def Arg.Typed (types : VariableTypes) : List Arg → List TypeId → Prop
  | [], [] => True
  | .const _ :: args, _ :: rest => Arg.Typed types args rest
  | .var name :: args, type :: rest => types.lookup name = some type ∧ Arg.Typed types args rest
  | _, _ => False

/-- A compiled rule fits a schema. -/
structure CompiledRule.Typed (r : CompiledRule) (s : Schema) : Prop where
  premises : List.Forall₂ (Term.Typed s r.variableTypes) r.rule.premises r.premiseRelations
  /-- Every variable with a type stands in a premise. -/
  placed : ∀ name type, r.variableTypes.lookup name = some type →
    ∃ t ∈ r.rule.premises, ∃ p, (p, .var name) ∈ t.positions
  conclusion : ∃ R, s.find? r.rule.conclusion.relation = some r.conclusionRelation ∧
    s.relation? r.conclusionRelation = some R ∧
    Arg.Typed r.variableTypes r.rule.conclusion.args R.argTypes
  roots : r.paths.map CompiledPath.root = List.range r.rule.premises.length
  /-- Every path is that of its root, and meets as many facts as there are premises. -/
  paths : ∀ path ∈ r.paths, ∃ relation, r.premiseRelations[path.root]? = some relation ∧
    path = Rule.pathFrom (.ofPremises r.rule.premises) r.premiseRelations r.variableTypes path.root
      relation ∧
    path.termOrder.length = r.rule.premises.length

theorem Term.Typed.mono {s s' : Schema} {types : VariableTypes} {t : Term} {id : RelationId}
    (extends_ : s.Extends s') (typed : t.Typed s types id) : t.Typed s' types id := by
  obtain ⟨R, found, isR, rest⟩ := typed
  exact ⟨R, extends_.found found, extends_.relation isR, rest⟩

/-- Declarations leave a compiled rule typed. -/
theorem CompiledRule.Typed.mono {r : CompiledRule} {s s' : Schema} (extends_ : s.Extends s')
    (typed : r.Typed s) : r.Typed s' := by
  obtain ⟨R, found, isR, args⟩ := typed.conclusion
  exact ⟨typed.premises.imp fun _ _ => .mono extends_, typed.placed,
    ⟨R, extends_.found found, extends_.relation isR, args⟩, typed.roots, typed.paths⟩

namespace Rule

variable {text : String} {s : Schema} {t : Term} {R : Relation} {types types' : VariableTypes}

/-! ### Premises -/

/-- What is known of names stays known. -/
def Refines {α : Type} (known known' : List (String × α)) : Prop :=
  ∀ name a, known.lookup name = some a → known'.lookup name = some a

theorem Refines.refl {α : Type} (known : List (String × α)) : Refines known known :=
  fun _ _ h => h

theorem Refines.trans {α : Type} {known known' known'' : List (String × α)}
    (first : Refines known known') (second : Refines known' known'') : Refines known known'' :=
  fun name a h => second name a (first name a h)

theorem lookup_append_single {α : Type} (known : List (String × α)) (name other : String) (a : α) :
    (known ++ [(name, a)]).lookup other =
      (known.lookup other).or (if other = name then some a else none) := by
  induction known with
  | nil =>
    by_cases same : other = name
    · simp [same]
    · simp [List.lookup_cons, beq_false_of_ne same, same]
  | cons x rest ih =>
    obtain ⟨first, b⟩ := x
    simp only [List.cons_append, List.lookup_cons]
    split <;> simp [ih]

theorem Refines.append_single {α : Type} (known : List (String × α)) (name : String) (a : α) :
    Refines known (known ++ [(name, a)]) := by
  intro other b h
  rw [lookup_append_single, h, Option.some_or]

/-- Every variable at the positions gets the type of its position, and no other variable a type. -/
structure Binds (R : Relation) (ps : List (Position × Arg)) (types types' : VariableTypes) :
    Prop where
  refines : Refines types types'
  covers : ∀ p name, (p, .var name) ∈ ps →
    ∃ type, R.typeAt? p = some type ∧ types'.lookup name = some type
  only : ∀ name type, types'.lookup name = some type →
    types.lookup name = some type ∨ ∃ p, (p, .var name) ∈ ps

theorem Binds.cons_var {ps : List (Position × Arg)} {p : Position} {name : String} {type : TypeId}
    {types₁ : VariableTypes} (typeAt : R.typeAt? p = some type) (refines : Refines types types₁)
    (typed : types₁.lookup name = some type)
    (only : ∀ other type', types₁.lookup other = some type' →
      types.lookup other = some type' ∨ other = name)
    (rest : Binds R ps types₁ types') : Binds R ((p, .var name) :: ps) types types' := by
  refine ⟨refines.trans rest.refines, fun q other mem => ?_, fun other type' known => ?_⟩
  · rcases List.mem_cons.mp mem with here | later
    · obtain ⟨rfl, same⟩ := Prod.mk.inj here
      obtain rfl := Arg.var.inj same
      exact ⟨type, typeAt, rest.refines _ _ typed⟩
    · exact rest.covers q other later
  · rcases rest.only other type' known with known₁ | ⟨q, mem⟩
    · rcases only other type' known₁ with old | rfl
      · exact .inl old
      · exact .inr ⟨p, List.mem_cons_self⟩
    · exact .inr ⟨q, List.mem_cons_of_mem _ mem⟩

theorem bindTypes_binds {ps : List (Position × Arg)}
    (bound : bindTypes text s t R ps types = .ok types') : Binds R ps types types' := by
  induction ps generalizing types with
  | nil =>
    obtain rfl := Except.ok.inj bound
    exact ⟨.refl types, by simp, fun _ _ known => .inl known⟩
  | cons x rest ih =>
    obtain ⟨p, arg⟩ := x
    cases arg with
    | const c =>
      obtain ⟨refines, covers, only⟩ := ih (by rwa [bindTypes] at bound)
      refine ⟨refines, fun q name mem => covers q name (by simpa using mem),
        fun name type known => ?_⟩
      rcases only name type known with old | ⟨q, mem⟩
      · exact .inl old
      · exact .inr ⟨q, List.mem_cons_of_mem _ mem⟩
    | var v =>
      rw [bindTypes] at bound
      split at bound
      · cases bound
      · rename_i type typeAt
        split at bound
        · rename_i new
          refine .cons_var typeAt (.append_single types v type) ?_ (fun name type' known => ?_)
            (ih bound)
          · rw [lookup_append_single, new, if_pos rfl, Option.none_or]
          · rw [lookup_append_single] at known
            rcases Option.or_eq_some_iff.mp known with old | ⟨_, added⟩
            · exact .inl old
            · split at added
              · exact .inr (by assumption)
              · cases added
        · rename_i known found
          split at bound
          · rename_i same
            exact .cons_var typeAt (.refl types) (same ▸ found) (fun _ _ h => .inl h) (ih bound)
          · cases bound

theorem typePremises_spec {premises : List Term} {ids : List RelationId}
    (typed : typePremises text s premises types = .ok (ids, types')) :
    Refines types types' ∧ List.Forall₂ (Term.Typed s types') premises ids ∧
      ∀ name type, types'.lookup name = some type →
        types.lookup name = some type ∨ ∃ t ∈ premises, ∃ p, (p, .var name) ∈ t.positions := by
  induction premises generalizing types ids with
  | nil =>
    simp only [typePremises, Except.ok.injEq, Prod.mk.injEq] at typed
    obtain ⟨rfl, rfl⟩ := typed
    exact ⟨.refl types, .nil, fun _ _ known => .inl known⟩
  | cons t rest ih =>
    rw [typePremises] at typed
    split at typed
    · cases typed
    · rename_i id found
      obtain ⟨R, isR, _⟩ := Schema.relation?_of_find? found
      simp only [isR, bind, Except.bind, pure, Except.pure] at typed
      split at typed
      · cases typed
      · rename_i arity
        split at typed
        · cases typed
        · rename_i types₁ bound
          split at typed
          · cases typed
          · rename_i result typedRest
            obtain ⟨ids', types₂⟩ := result
            simp only [Except.ok.injEq, Prod.mk.injEq] at typed
            obtain ⟨rfl, rfl⟩ := typed
            obtain ⟨refines, covers, only⟩ := bindTypes_binds bound
            obtain ⟨refinesRest, fits, onlyRest⟩ := ih typedRest
            have length : t.args.length = R.arity := by
              unfold checkArity at arity
              split at arity
              · assumption
              · cases arity
            refine ⟨refines.trans refinesRest, .cons ⟨R, found, isR, length, ?_⟩ fits, ?_⟩
            · intro p name mem
              obtain ⟨type, typeAt, known⟩ := covers p name mem
              exact ⟨type, typeAt, refinesRest _ _ known⟩
            · intro name type known
              rcases onlyRest name type known with known₁ | ⟨t', mem, p, at_⟩
              · rcases only name type known₁ with old | ⟨p, mem⟩
                · exact .inl old
                · exact .inr ⟨t, List.mem_cons_self, p, mem⟩
              · exact .inr ⟨t', List.mem_cons_of_mem _ mem, p, at_⟩

/-! ### Conclusions -/

theorem checkConclusion_typed {args : List Arg} {declared : List TypeId}
    (length : args.length = declared.length)
    (checked : checkConclusion text s types args declared = .ok ()) :
    Arg.Typed types args declared := by
  induction args generalizing declared with
  | nil =>
    obtain rfl := List.eq_nil_of_length_eq_zero length.symm
    simp [Arg.Typed]
  | cons arg args ih =>
    cases declared with
    | nil => simp at length
    | cons type rest =>
      have lengthRest : args.length = rest.length := by simpa using length
      cases arg with
      | const c =>
        rw [checkConclusion] at checked
        rw [Arg.Typed]
        exact ih lengthRest checked
      | var name =>
        rw [checkConclusion] at checked
        split at checked
        · cases checked
        · rename_i bound known
          split at checked
          · rename_i same
            rw [Arg.Typed]
            exact ⟨same ▸ known, ih lengthRest checked⟩
          · cases checked

theorem inferConclusion_typed {relation : String} {args : List Arg} {argTypes : List TypeId}
    (inferred : inferConclusion text relation types args = .ok argTypes) :
    Arg.Typed types args argTypes := by
  induction args generalizing argTypes with
  | nil =>
    obtain rfl := Except.ok.inj inferred
    simp [Arg.Typed]
  | cons arg args ih =>
    cases arg with
    | const c => cases inferred
    | var name =>
      rw [inferConclusion] at inferred
      split at inferred
      · cases inferred
      · rename_i type known
        cases rest : inferConclusion text relation types args with
        | error e => simp [rest, Except.map] at inferred
        | ok others =>
          rw [rest] at inferred
          obtain rfl := Except.ok.inj inferred
          rw [Arg.Typed]
          exact ⟨known, ih rest⟩

/-- Typing a conclusion extends the schema, and answers with a relation that the conclusion fits. -/
theorem typeConclusion_spec (text : String) (conclusion : Term) (types : VariableTypes)
    (s : Schema) :
    s.Extends (typeConclusion text conclusion types s).2 ∧
      (s.WellFormed → (typeConclusion text conclusion types s).2.WellFormed) ∧
      ∀ id, (typeConclusion text conclusion types s).1 = .ok id →
        ∃ R, (typeConclusion text conclusion types s).2.find? conclusion.relation = some id ∧
          (typeConclusion text conclusion types s).2.relation? id = some R ∧
          Arg.Typed types conclusion.args R.argTypes := by
  unfold typeConclusion
  cases found : s.find? conclusion.relation with
  | some known =>
    obtain ⟨R, isR, _⟩ := Schema.relation?_of_find? found
    simp only [isR]
    cases arity : checkArity text conclusion R with
    | error e => exact ⟨.refl s, id, by simp⟩
    | ok =>
      simp only
      cases checked : checkConclusion text s types conclusion.args R.argTypes with
      | error e => exact ⟨.refl s, id, by simp⟩
      | ok =>
        refine ⟨.refl s, id, ?_⟩
        intro other same
        obtain rfl := Except.ok.inj same
        have length : conclusion.args.length = R.argTypes.length := by
          unfold checkArity at arity
          split at arity
          · assumption
          · cases arity
        exact ⟨R, found, isR, checkConclusion_typed length checked⟩
  | none =>
    simp only
    cases inferred : inferConclusion text conclusion.relation types conclusion.args with
    | error e => exact ⟨.refl s, id, by simp⟩
    | ok argTypes =>
      have extends_ := Schema.declare_extends s conclusion.relation argTypes
      have wellFormed := fun wf : s.WellFormed => wf.declare conclusion.relation argTypes
      have declared := @Schema.declare_ok s conclusion.relation argTypes
      simp only
      generalize s.declare conclusion.relation argTypes = answer at extends_ wellFormed declared
      obtain ⟨result, s'⟩ := answer
      cases result with
      | error e => exact ⟨extends_, wellFormed, by simp⟩
      | ok r =>
        refine ⟨extends_, wellFormed, ?_⟩
        intro other same
        obtain rfl := Except.ok.inj same
        obtain ⟨foundR, R, isR, argTypes⟩ := declared rfl
        exact ⟨R, foundR, isR, argTypes ▸ inferConclusion_typed inferred⟩

/-! ### Paths -/

/-- The pattern from one premise that these steps through the join graph make. -/
def pathAlong (j : JoinGraph) (relations : List RelationId) (types : VariableTypes) (root : Nat)
    (relation : RelationId) (steps : List TourStep) : CompiledPath :=
  { root
    keys := dropReturns
      (.relation relation .head :: steps.filterMap (stepKey? j relations types root))
    termOrder := root :: steps.filterMap enteredPremise? }

/-- The patterns from the premises `root`, `root + 1` and so on, along any way to search the join
graph. -/
def pathsAlong (search : JoinGraph → Nat → List TourStep) (text : String) (j : JoinGraph)
    (relations : List RelationId) (types : VariableTypes) :
    (root : Nat) → List RelationId → Except RuleError (List CompiledPath)
  | _, [] => .ok []
  | root, relation :: rest =>
    let path := pathAlong j relations types root relation (search j root)
    if path.termOrder.length ≠ j.premises.length then .error (.disconnected text)
    else (pathsAlong search text j relations types (root + 1) rest).map (path :: ·)

variable {j : JoinGraph} {relations rest : List RelationId} {root : Nat} {paths : List CompiledPath}

/-- The compiler searches by tours. -/
theorem pathsAlong_tour :
    pathsAlong JoinGraph.tour text j relations types root rest =
      pathsFrom text j relations types root rest := by
  induction rest generalizing root with
  | nil => rfl
  | cons relation rest ih =>
    rw [pathsAlong, pathsFrom, ih]
    rfl

theorem pathsAlong_spec {search : JoinGraph → Nat → List TourStep}
    (made : pathsAlong search text j relations types root rest = .ok paths) :
    paths.map CompiledPath.root = List.range' root rest.length ∧
      ∀ path ∈ paths, ∃ i relation, rest[i]? = some relation ∧
        path = pathAlong j relations types (root + i) relation (search j (root + i)) ∧
        path.termOrder.length = j.premises.length := by
  induction rest generalizing root paths with
  | nil =>
    obtain rfl := Except.ok.inj made
    simp
  | cons relation rest ih =>
    rw [pathsAlong] at made
    split at made
    · cases made
    · rename_i complete
      cases later : pathsAlong search text j relations types (root + 1) rest with
      | error e => simp [later, Except.map] at made
      | ok others =>
        rw [later] at made
        obtain rfl := Except.ok.inj made
        obtain ⟨roots, spec⟩ := ih later
        refine ⟨by simp [roots, pathAlong, List.range'_succ], ?_⟩
        intro path mem
        rcases List.mem_cons.mp mem with rfl | mem
        · exact ⟨0, relation, rfl, rfl, Decidable.not_not.mp complete⟩
        · obtain ⟨i, r, at_, same, complete⟩ := spec path mem
          refine ⟨i + 1, r, by simpa using at_, ?_, complete⟩
          rw [same, Nat.add_assoc, Nat.add_comm 1 i]

theorem pathsFrom_spec (made : pathsFrom text j relations types root rest = .ok paths) :
    paths.map CompiledPath.root = List.range' root rest.length ∧
      ∀ path ∈ paths, ∃ i relation, rest[i]? = some relation ∧
        path = pathFrom j relations types (root + i) relation ∧
        path.termOrder.length = j.premises.length :=
  pathsAlong_spec (pathsAlong_tour.trans made)

/-! ### Rules -/

/-- Compiles a rule along any way to search the join graph. -/
def compileAlong (search : JoinGraph → Nat → List TourStep) (rule : Rule) (s : Schema) :
    Except RuleError CompiledRule × Schema :=
  let text := rule.text
  match typePremises text s rule.premises [] with
  | .error e => (.error e, s)
  | .ok (premiseRelations, variableTypes) =>
    match checkBound text variableTypes rule.conclusion.args with
    | .error e => (.error e, s)
    | .ok () =>
      match typeConclusion text rule.conclusion variableTypes s with
      | (.error e, s) => (.error e, s)
      | (.ok conclusionRelation, s) =>
        let j := JoinGraph.ofPremises rule.premises
        match pathsAlong search text j premiseRelations variableTypes 0 premiseRelations with
        | .error e => (.error e, s)
        | .ok paths =>
          (.ok { rule, premiseRelations, conclusionRelation, variableTypes, paths }, s)

theorem compileAlong_tour (rule : Rule) (s : Schema) :
    rule.compileAlong JoinGraph.tour s = rule.compile s := by
  have searches : pathsAlong JoinGraph.tour = pathsFrom := by
    funext text j relations types root rest
    exact pathsAlong_tour
  rw [compileAlong, searches]
  rfl

/-- A rule compiles just if every part of it does. -/
theorem compileAlong_eq_ok_iff {search : JoinGraph → Nat → List TourStep} {rule : Rule}
    {s s' : Schema} {r : CompiledRule} : rule.compileAlong search s = (.ok r, s') ↔
    typePremises rule.text s rule.premises [] = .ok (r.premiseRelations, r.variableTypes) ∧
      checkBound rule.text r.variableTypes rule.conclusion.args = .ok () ∧
      typeConclusion rule.text rule.conclusion r.variableTypes s = (.ok r.conclusionRelation, s') ∧
      pathsAlong search rule.text (.ofPremises rule.premises) r.premiseRelations r.variableTypes 0
        r.premiseRelations = .ok r.paths ∧
      r.rule = rule := by
  constructor
  · intro compiled
    unfold compileAlong at compiled
    simp only at compiled
    split at compiled
    · cases compiled
    · rename_i typed
      split at compiled
      · cases compiled
      · rename_i bound
        split at compiled
        · cases compiled
        · rename_i concluded
          split at compiled
          · cases compiled
          · rename_i made
            cases compiled
            exact ⟨typed, bound, concluded, made, rfl⟩
  · rintro ⟨typed, bound, concluded, made, rfl⟩
    simp [compileAlong, typed, bound, concluded, made]

theorem compile_eq_ok_iff {rule : Rule} {s s' : Schema} {r : CompiledRule} :
    rule.compile s = (.ok r, s') ↔
    typePremises rule.text s rule.premises [] = .ok (r.premiseRelations, r.variableTypes) ∧
      checkBound rule.text r.variableTypes rule.conclusion.args = .ok () ∧
      typeConclusion rule.text rule.conclusion r.variableTypes s = (.ok r.conclusionRelation, s') ∧
      pathsFrom rule.text (.ofPremises rule.premises) r.premiseRelations r.variableTypes 0
        r.premiseRelations = .ok r.paths ∧
      r.rule = rule := by
  rw [← compileAlong_tour, compileAlong_eq_ok_iff, pathsAlong_tour]

/-- Compiling extends the schema, also when it fails. -/
theorem compile_schema (rule : Rule) (s : Schema) :
    s.Extends (rule.compile s).2 ∧ (s.WellFormed → (rule.compile s).2.WellFormed) := by
  unfold compile
  simp only
  split
  · exact ⟨.refl s, id⟩
  · rename_i relations types _
    split
    · exact ⟨.refl s, id⟩
    · obtain ⟨extends_, wellFormed, _⟩ := typeConclusion_spec rule.text rule.conclusion types s
      generalize typeConclusion rule.text rule.conclusion types s = answer at extends_ wellFormed
      obtain ⟨result, s'⟩ := answer
      cases result with
      | error e => exact ⟨extends_, wellFormed⟩
      | ok r =>
        simp only
        split <;> exact ⟨extends_, wellFormed⟩

/-- A rule that compiles is typed, over the schema that compiling leaves. -/
theorem compile_typed {rule : Rule} {s : Schema} {r : CompiledRule}
    (compiled : (rule.compile s).1 = .ok r) : r.rule = rule ∧ r.Typed (rule.compile s).2 := by
  obtain ⟨typed, _, concluded, made, rfl⟩ := compile_eq_ok_iff.mp (Prod.ext compiled rfl)
  obtain ⟨_, premises, placed⟩ := typePremises_spec typed
  obtain ⟨extends_, _, found⟩ := typeConclusion_spec r.rule.text r.rule.conclusion r.variableTypes s
  obtain ⟨roots, spec⟩ := pathsFrom_spec made
  rw [concluded] at extends_ found
  refine ⟨rfl, premises.imp fun _ _ => .mono extends_, fun name type known => ?_, found _ rfl, ?_,
    fun path mem => ?_⟩
  · exact (placed name type known).resolve_left (by simp)
  · rw [roots, premises.length_eq, List.range_eq_range']
  · obtain ⟨i, relation, at_, same, complete⟩ := spec path mem
    have root : path.root = i := by rw [same]; simp [pathFrom]
    exact ⟨relation, root ▸ at_, by rw [root, same, Nat.zero_add], complete⟩

end Rule

end ScoredChaining
