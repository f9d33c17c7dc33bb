import ScoredChaining.Proofs.Rule.Connectivity

/-!
Which rules compile.

`Rule.WellTyped` and `Rule.Connected` say what a rule must satisfy without a word about the order of
the checks. Each check of the compiler is shown to succeed just if its part of them holds.

* `Rule.exists_typePremises_iff`: the premises can be typed just if their relations are declared
  with as many arguments and every variable has one type.
* `Rule.exists_typeConclusion_iff`: the same for the conclusion, given the types of the variables.
* `Rule.exists_pathsFrom_iff`: there is a path from every premise just if the rule is connected.
* `Rule.compile_iff_wellTyped`: a rule compiles just if it is well typed and connected. The types of
  its variables are then those of their positions, and a new conclusion is declared with the types
  of its variables (`Rule.Infers`).
-/

namespace ScoredChaining

/-- The relation with this name. -/
def Schema.named? (s : Schema) (name : String) : Option Relation :=
  (s.find? name).bind s.relation?

theorem Schema.named?_eq_some_iff {s : Schema} {name : String} {R : Relation} :
    s.named? name = some R ↔ ∃ id, s.find? name = some id ∧ s.relation? id = some R :=
  Option.bind_eq_some_iff

theorem Schema.named?_eq_none_iff {s : Schema} {name : String} :
    s.named? name = none ↔ s.find? name = none := by
  rw [named?]
  cases found : s.find? name with
  | none => simp
  | some id =>
    obtain ⟨R, isR, _⟩ := relation?_of_find? found
    simp [isR]

namespace Rule

/-- The variable stands in a premise at a position that has this type. -/
def HasType (rule : Rule) (s : Schema) (name : String) (type : TypeId) : Prop :=
  ∃ t ∈ rule.premises, ∃ R p, s.named? t.relation = some R ∧ t.argAt? p = some (.var name) ∧
    R.typeAt? p = some type

/-- The rule fits the schema. -/
structure WellTyped (rule : Rule) (s : Schema) : Prop where
  declared : ∀ t ∈ rule.premises, ∃ R, s.named? t.relation = some R ∧ t.args.length = R.arity
  consistent : ∀ name type type',
    rule.HasType s name type → rule.HasType s name type' → type = type'
  bound : ∀ name, Arg.var name ∈ rule.conclusion.args → ∃ t ∈ rule.premises, t.Mentions name
  /-- The conclusion fits its relation if that is declared. -/
  fits : ∀ R, s.named? rule.conclusion.relation = some R →
    rule.conclusion.args.length = R.arity ∧
      ∀ (i : Nat) name type, rule.conclusion.args[i]? = some (.var name) →
        rule.HasType s name type → R.argTypes[i]? = some type
  /-- Otherwise its arguments are variables, so that their types are known. -/
  inferable : s.named? rule.conclusion.relation = none →
    ∀ a ∈ rule.conclusion.args, ∃ name, a = .var name

/-- From every premise a chain of premises in which each shares a variable with the next leads to
every other. -/
def Connected (rule : Rule) : Prop :=
  ∀ i < rule.premises.length, ∀ k < rule.premises.length,
    Relation.ReflTransGen (JoinGraph.Shares rule.premises) i k

/-- What compiling a rule finds out: the types of the variables, and the relation of the conclusion,
which is declared with the types of its arguments if it is new. -/
structure Infers (rule : Rule) (s : Schema) (r : CompiledRule) (s' : Schema) : Prop where
  types : ∀ name type, r.variableTypes.lookup name = some type ↔ rule.HasType s name type
  known : ∀ id, s.find? rule.conclusion.relation = some id → r.conclusionRelation = id ∧ s' = s
  new : s.find? rule.conclusion.relation = none → ∃ argTypes R,
    List.Forall₂ (fun a type => ∃ name, a = .var name ∧ rule.HasType s name type)
      rule.conclusion.args argTypes ∧
    s.declare rule.conclusion.relation argTypes = (.ok r.conclusionRelation, s') ∧
    s'.find? rule.conclusion.relation = some r.conclusionRelation ∧
    s'.relation? r.conclusionRelation = some R ∧ R.argTypes = argTypes

variable {rule : Rule} {text : String} {s s' : Schema} {t : Term} {R : Relation}
  {types types' : VariableTypes}

/-! ### Premises -/

section Premises

variable {T : String → TypeId → Prop}

/-- Positions whose types agree with one type for each variable can be typed. -/
theorem bindTypes_complete (text : String) (s : Schema) (t : Term)
    (functional : ∀ name type type', T name type → T name type' → type = type')
    {ps : List (Position × Arg)}
    (fits : ∀ p name, (p, .var name) ∈ ps → ∃ type, R.typeAt? p = some type ∧ T name type)
    (known : ∀ name type, types.lookup name = some type → T name type) :
    ∃ types', bindTypes text s t R ps types = .ok types' ∧
      ∀ name type, types'.lookup name = some type → T name type := by
  induction ps generalizing types with
  | nil => exact ⟨types, rfl, known⟩
  | cons x rest ih =>
    obtain ⟨p, arg⟩ := x
    have fitsRest : ∀ p name, (p, .var name) ∈ rest →
        ∃ type, R.typeAt? p = some type ∧ T name type :=
      fun q other mem => fits q other (List.mem_cons_of_mem _ mem)
    cases arg with
    | const c => exact ih fitsRest known
    | var name =>
      obtain ⟨type, typeAt, isType⟩ := fits p name List.mem_cons_self
      simp only [bindTypes, typeAt]
      cases found : types.lookup name with
      | some old =>
        simp only [functional name old type (known _ _ found) isType, if_true]
        exact ih fitsRest known
      | none =>
        refine ih fitsRest fun other type' lookup => ?_
        rw [lookup_append_single] at lookup
        rcases Option.or_eq_some_iff.mp lookup with old | ⟨_, added⟩
        · exact known _ _ old
        · split at added
          · rename_i same
            exact same ▸ Option.some.inj added ▸ isType
          · cases added

/-- Premises whose positions agree with one type for each variable can be typed. -/
theorem typePremises_complete
    (functional : ∀ name type type', T name type → T name type' → type = type')
    {premises : List Term}
    (fits : ∀ t ∈ premises, ∃ R, s.named? t.relation = some R ∧ t.args.length = R.arity ∧
      ∀ p name, t.argAt? p = some (.var name) → ∃ type, R.typeAt? p = some type ∧ T name type)
    (known : ∀ name type, types.lookup name = some type → T name type) :
    ∃ result, typePremises text s premises types = .ok result := by
  induction premises generalizing types with
  | nil => exact ⟨_, rfl⟩
  | cons t rest ih =>
    obtain ⟨⟨R, isNamed, arity, typed⟩, fitsRest⟩ := List.forall_mem_cons.mp fits
    obtain ⟨id, found, isR⟩ := Schema.named?_eq_some_iff.mp isNamed
    obtain ⟨types₁, bound, known₁⟩ := bindTypes_complete text s t functional
      (fun p name mem => typed p name (Term.mem_positions.mp mem)) known
    obtain ⟨result, typedRest⟩ := ih fitsRest known₁
    exact ⟨(id :: result.1, result.2), by
      simp [typePremises, found, isR, checkArity, arity, bound, typedRest, bind, Except.bind, pure,
        Except.pure]⟩

end Premises

/-- A term with as many arguments as its relation has a type at each of its positions. -/
theorem exists_typeAt? {p : Position} {a : Arg} (arity : t.args.length = R.arity)
    (at_ : t.argAt? p = some a) : ∃ type, R.typeAt? p = some type := by
  cases p with
  | head => exact ⟨_, rfl⟩
  | tail i =>
    have bound : i < R.argTypes.length := by
      rw [← Relation.arity, ← arity]
      exact (List.getElem?_eq_some_iff.mp at_).1
    exact ⟨_, List.getElem?_eq_getElem bound⟩

/-- The types that the variables of typed premises get are those of their positions. -/
theorem lookup_eq_some_iff_of_typePremises {ids : List RelationId}
    (typed : typePremises text s rule.premises [] = .ok (ids, types)) {name : String}
    {type : TypeId} : types.lookup name = some type ↔ rule.HasType s name type := by
  obtain ⟨_, premises, placed⟩ := typePremises_spec typed
  have fits : ∀ t ∈ rule.premises, ∃ R, s.named? t.relation = some R ∧
      ∀ p name, t.argAt? p = some (.var name) →
        ∃ type, R.typeAt? p = some type ∧ types.lookup name = some type := by
    intro t isPremise
    obtain ⟨i, bound, rfl⟩ := List.getElem_of_mem isPremise
    obtain ⟨R, found, isR, _, fits⟩ := premises.get bound (premises.length_eq ▸ bound)
    exact ⟨R, Schema.named?_eq_some_iff.mpr ⟨_, found, isR⟩,
      fun p name at_ => fits p name (Term.mem_positions.mpr at_)⟩
  constructor
  · intro known
    obtain ⟨t, isPremise, p, mem⟩ := (placed name type known).resolve_left (by simp)
    obtain ⟨R, isNamed, fits⟩ := fits t isPremise
    have at_ := Term.mem_positions.mp mem
    obtain ⟨type', typeAt, known'⟩ := fits p name at_
    obtain rfl := Option.some.inj (known.symm.trans known')
    exact ⟨t, isPremise, R, p, isNamed, at_, typeAt⟩
  · rintro ⟨t, isPremise, R, p, isNamed, at_, typeAt⟩
    obtain ⟨R', isNamed', fits⟩ := fits t isPremise
    obtain rfl := Option.some.inj (isNamed.symm.trans isNamed')
    obtain ⟨type', typeAt', known⟩ := fits p name at_
    obtain rfl := Option.some.inj (typeAt.symm.trans typeAt')
    exact known

/-- The premises can be typed just if their relations are declared with as many arguments and every
variable has one type. -/
theorem exists_typePremises_iff :
    (∃ result, typePremises text s rule.premises [] = .ok result) ↔
      (∀ t ∈ rule.premises, ∃ R, s.named? t.relation = some R ∧ t.args.length = R.arity) ∧
        ∀ name type type', rule.HasType s name type → rule.HasType s name type' → type = type' := by
  constructor
  · rintro ⟨⟨ids, types⟩, typed⟩
    refine ⟨fun t isPremise => ?_, fun name type type' isType isType' => ?_⟩
    · obtain ⟨_, premises, _⟩ := typePremises_spec typed
      obtain ⟨i, bound, rfl⟩ := List.getElem_of_mem isPremise
      obtain ⟨R, found, isR, arity, _⟩ := premises.get bound (premises.length_eq ▸ bound)
      exact ⟨R, Schema.named?_eq_some_iff.mpr ⟨_, found, isR⟩, arity⟩
    · have known := (lookup_eq_some_iff_of_typePremises typed).mpr isType
      exact Option.some.inj
        (known.symm.trans ((lookup_eq_some_iff_of_typePremises typed).mpr isType'))
  · rintro ⟨declared, consistent⟩
    refine typePremises_complete (T := rule.HasType s) consistent (fun t isPremise => ?_) (by simp)
    obtain ⟨R, isNamed, arity⟩ := declared t isPremise
    refine ⟨R, isNamed, arity, fun p name at_ => ?_⟩
    obtain ⟨type, typeAt⟩ := exists_typeAt? arity at_
    exact ⟨type, typeAt, t, isPremise, R, p, isNamed, at_, typeAt⟩

/-- In typed premises every variable that is mentioned has a type. -/
theorem exists_hasType_iff
    (declared : ∀ t ∈ rule.premises, ∃ R, s.named? t.relation = some R ∧ t.args.length = R.arity)
    {name : String} :
    (∃ type, rule.HasType s name type) ↔ ∃ t ∈ rule.premises, t.Mentions name := by
  constructor
  · rintro ⟨_, t, isPremise, _, p, _, at_, _⟩
    exact ⟨t, isPremise, p, at_⟩
  · rintro ⟨t, isPremise, p, at_⟩
    obtain ⟨R, isNamed, arity⟩ := declared t isPremise
    obtain ⟨type, typeAt⟩ := exists_typeAt? arity at_
    exact ⟨type, t, isPremise, R, p, isNamed, at_, typeAt⟩

/-! ### The conclusion -/

theorem checkBound_eq_ok_iff {args : List Arg} : checkBound text types args = .ok () ↔
    ∀ name, .var name ∈ args → ∃ type, types.lookup name = some type := by
  induction args with
  | nil => simp [checkBound]
  | cons arg rest ih =>
    cases arg with
    | const c => simpa [checkBound] using ih
    | var name => cases found : types.lookup name <;> simp [checkBound, found, ih]

theorem checkArity_eq_ok_iff : checkArity text t R = .ok () ↔ t.args.length = R.arity := by
  unfold checkArity
  split <;> simp [*]

theorem typed_args_iff {args : List Arg} {declared : List TypeId} :
    Arg.Typed types args declared ↔ args.length = declared.length ∧
      ∀ (i : Nat) name, args[i]? = some (.var name) →
        ∃ type, types.lookup name = some type ∧ declared[i]? = some type := by
  induction args generalizing declared with
  | nil => cases declared <;> simp [Arg.Typed]
  | cons arg args ih =>
    cases declared with
    | nil => cases arg <;> simp [Arg.Typed]
    | cons type declared =>
      cases arg <;> rw [← Nat.and_forall_add_one] <;> simp [Arg.Typed, ih, and_left_comm]

theorem checkConclusion_eq_ok_iff {args : List Arg} {declared : List TypeId}
    (length : args.length = declared.length) :
    checkConclusion text s types args declared = .ok () ↔ Arg.Typed types args declared := by
  refine ⟨checkConclusion_typed length, fun typed => ?_⟩
  induction args generalizing declared with
  | nil => cases declared <;> rfl
  | cons arg args ih =>
    cases declared with
    | nil => cases length
    | cons type declared =>
      have lengthRest : args.length = declared.length := by simpa using length
      cases arg with
      | const c => exact ih lengthRest typed
      | var name =>
        rw [Arg.Typed] at typed
        simp only [checkConclusion, typed.1, if_true]
        exact ih lengthRest typed.2

theorem inferConclusion_eq_ok_iff {relation : String} {args : List Arg} {argTypes : List TypeId} :
    inferConclusion text relation types args = .ok argTypes ↔
      List.Forall₂ (fun a type => ∃ name, a = .var name ∧ types.lookup name = some type)
        args argTypes := by
  induction args generalizing argTypes with
  | nil => simp [inferConclusion, eq_comm]
  | cons arg args ih =>
    cases arg with
    | const c => simp [inferConclusion, List.forall₂_cons_left_iff]
    | var name =>
      rw [inferConclusion, List.forall₂_cons_left_iff]
      cases found : types.lookup name with
      | none => simp [found]
      | some type =>
        cases rest : inferConclusion text relation types args <;>
          simp [found, rest, Except.map, ← ih, eq_comm]

/-- Variables with types fit the declared types just if none of them has another type there. -/
theorem typed_args_iff_of_bound {args : List Arg} {declared : List TypeId}
    (bound : ∀ name, .var name ∈ args → ∃ type, types.lookup name = some type) :
    Arg.Typed types args declared ↔ args.length = declared.length ∧
      ∀ (i : Nat) name type, args[i]? = some (.var name) → types.lookup name = some type →
        declared[i]? = some type := by
  rw [typed_args_iff]
  refine and_congr_right fun _ => ⟨fun fits i name type at_ known => ?_, fun fits i name at_ => ?_⟩
  · obtain ⟨type', known', isDeclared⟩ := fits i name at_
    obtain rfl := Option.some.inj (known.symm.trans known')
    exact isDeclared
  · obtain ⟨type, known⟩ := bound name (List.mem_of_getElem? at_)
    exact ⟨type, known, fits i name type at_ known⟩

/-- The types of arguments can be inferred just if all are variables. -/
theorem exists_inferConclusion_iff (text relation : String) {args : List Arg}
    (bound : ∀ name, .var name ∈ args → ∃ type, types.lookup name = some type) :
    (∃ argTypes, inferConclusion text relation types args = .ok argTypes) ↔
      ∀ a ∈ args, ∃ name, a = .var name := by
  induction args with
  | nil => simp [inferConclusion]
  | cons arg args ih =>
    have boundRest : ∀ name, .var name ∈ args → ∃ type, types.lookup name = some type :=
      fun name mem => bound name (List.mem_cons_of_mem _ mem)
    cases arg with
    | const c => simp [inferConclusion]
    | var name =>
      obtain ⟨type, known⟩ := bound name List.mem_cons_self
      rw [List.forall_mem_cons, ← ih boundRest]
      cases rest : inferConclusion text relation types args <;>
        simp [inferConclusion, known, rest, Except.map]

theorem typeConclusion_eq_ok_iff_of_known {id x : RelationId}
    (found : s.find? t.relation = some id) (isR : s.relation? id = some R) :
    typeConclusion text t types s = (.ok x, s') ↔
      Arg.Typed types t.args R.argTypes ∧ x = id ∧ s' = s := by
  unfold typeConclusion
  simp only [found, isR]
  cases arity : checkArity text t R with
  | error failure =>
    have misfit : ¬Arg.Typed types t.args R.argTypes := by
      intro typed
      have fits : checkArity text t R = .ok () :=
        checkArity_eq_ok_iff.mpr (typed_args_iff.mp typed).1
      cases arity.symm.trans fits
    simp [misfit]
  | ok =>
    have length : t.args.length = R.argTypes.length := checkArity_eq_ok_iff.mp arity
    have checks : checkConclusion text s types t.args R.argTypes = .ok () ↔
        Arg.Typed types t.args R.argTypes := checkConclusion_eq_ok_iff length
    rw [← checks]
    cases checkConclusion text s types t.args R.argTypes <;> simp [eq_comm]

theorem typeConclusion_eq_ok_iff_of_new {x : RelationId} (new : s.find? t.relation = none) :
    typeConclusion text t types s = (.ok x, s') ↔ ∃ argTypes,
      inferConclusion text t.relation types t.args = .ok argTypes ∧
        s.declare t.relation argTypes = (.ok x, s') := by
  unfold typeConclusion
  simp only [new]
  cases inferConclusion text t.relation types t.args with
  | error failure => simp
  | ok argTypes =>
    simp only [Except.ok.injEq, exists_eq_left']
    generalize s.declare t.relation argTypes = answer
    obtain ⟨_ | _, _⟩ := answer <;> simp

/-- A conclusion whose variables have types fits just if it fits its relation, or consists of
variables if that is new. -/
theorem exists_typeConclusion_iff (text : String)
    (bound : ∀ name, .var name ∈ t.args → ∃ type, types.lookup name = some type) :
    (∃ x s', typeConclusion text t types s = (.ok x, s')) ↔
      (∀ R, s.named? t.relation = some R → Arg.Typed types t.args R.argTypes) ∧
        (s.named? t.relation = none → ∀ a ∈ t.args, ∃ name, a = .var name) := by
  cases found : s.find? t.relation with
  | some id =>
    obtain ⟨R, isR, _⟩ := Schema.relation?_of_find? found
    have isNamed : s.named? t.relation = some R := Schema.named?_eq_some_iff.mpr ⟨id, found, isR⟩
    simp [typeConclusion_eq_ok_iff_of_known found isR, isNamed]
  | none =>
    simp only [typeConclusion_eq_ok_iff_of_new found, Schema.named?_eq_none_iff.mpr found,
      reduceCtorEq, false_implies, implies_true, true_and, true_implies,
      ← exists_inferConclusion_iff text t.relation bound]
    constructor
    · rintro ⟨_, _, argTypes, inferred, _⟩
      exact ⟨argTypes, inferred⟩
    · rintro ⟨argTypes, inferred⟩
      -- a name that no relation has can be declared
      have declares : (s.declare t.relation argTypes).1 = .ok ⟨s.relations.length⟩ := by
        simp [Schema.declare, found, Schema.internType_relations]
      exact ⟨_, _, argTypes, inferred, Prod.ext declares rfl⟩

/-! ### Paths -/

/-- There are paths from these premises just if the tour from each of them enters every premise. -/
theorem exists_pathsFrom_iff_complete {j : JoinGraph} {relations rest : List RelationId}
    {root : Nat} : (∃ paths, pathsFrom text j relations types root rest = .ok paths) ↔
      ∀ i, root ≤ i → i < root + rest.length →
        (i :: (j.tour i).filterMap enteredPremise?).length = j.premises.length := by
  induction rest generalizing root with
  | nil =>
    refine iff_of_true ⟨[], rfl⟩ fun i least most => ?_
    rw [List.length_nil] at most
    omega
  | cons relation rest ih =>
    have order : (pathFrom j relations types root relation).termOrder =
        root :: (j.tour root).filterMap enteredPremise? := rfl
    have onwards : (∃ paths, (pathsFrom text j relations types (root + 1) rest).map
          (pathFrom j relations types root relation :: ·) = .ok paths) ↔
        ∃ paths, pathsFrom text j relations types (root + 1) rest = .ok paths := by
      cases pathsFrom text j relations types (root + 1) rest <;> simp [Except.map]
    rw [pathsFrom, order]
    split
    · rename_i incomplete
      refine iff_of_false (by simp) fun complete => incomplete ?_
      exact complete root (Nat.le_refl root) (by simp)
    · rename_i complete
      rw [onwards, ih]
      constructor
      · intro rest i least most
        rcases Nat.eq_or_lt_of_le least with rfl | later
        · exact Decidable.not_not.mp complete
        · exact rest i later (by rw [List.length_cons] at most; omega)
      · intro all i least most
        exact all i (by omega) (by rw [List.length_cons]; omega)

/-- There is a path from every premise just if the rule is connected. -/
theorem exists_pathsFrom_iff {relations rest : List RelationId}
    (length : rest.length = rule.premises.length) :
    (∃ paths, pathsFrom text (.ofPremises rule.premises) relations types 0 rest = .ok paths) ↔
      rule.Connected := by
  rw [exists_pathsFrom_iff_complete, Nat.zero_add, length]
  refine forall_congr' fun i => ?_
  simp only [Nat.zero_le, true_implies]
  refine imp_congr_right fun bound => ?_
  have search := JoinGraph.depthFirst_tour (j := .ofPremises rule.premises) bound
  rw [length_order_iff bound search]
  simp only [JoinGraph.reaches_premise_iff]
  rfl

/-! ### Rules -/

/-- What a rule that compiles has found out. -/
theorem infers_of_compile {r : CompiledRule} (compiled : rule.compile s = (.ok r, s')) :
    rule.Infers s r s' := by
  obtain ⟨typed, _, concluded, _, rfl⟩ := compile_eq_ok_iff.mp compiled
  have isType : ∀ name type, r.variableTypes.lookup name = some type ↔ r.rule.HasType s name type :=
    fun _ _ => lookup_eq_some_iff_of_typePremises typed
  refine ⟨isType, fun id found => ?_, fun new => ?_⟩
  · obtain ⟨R, isR, _⟩ := Schema.relation?_of_find? found
    exact ((typeConclusion_eq_ok_iff_of_known found isR).mp concluded).2
  · obtain ⟨argTypes, inferred, declares⟩ := (typeConclusion_eq_ok_iff_of_new new).mp concluded
    have fits := (inferConclusion_eq_ok_iff.mp inferred).imp
      (S := fun a type => ∃ name, a = .var name ∧ r.rule.HasType s name type)
      fun _ _ ⟨name, same, known⟩ => ⟨name, same, (isType name _).mp known⟩
    obtain ⟨found, R, isR, sameTypes⟩ := Schema.declare_ok (congrArg Prod.fst declares)
    rw [declares] at found isR
    exact ⟨argTypes, R, fits, declares, found, isR, sameTypes⟩

/-- A rule that compiles is well typed and connected. -/
theorem wellTyped_of_compile {r : CompiledRule} (compiled : rule.compile s = (.ok r, s')) :
    rule.WellTyped s ∧ rule.Connected := by
  obtain ⟨typed, bound, concluded, made, rfl⟩ := compile_eq_ok_iff.mp compiled
  obtain ⟨declared, consistent⟩ := exists_typePremises_iff.mp ⟨_, typed⟩
  have isType : ∀ name type, r.variableTypes.lookup name = some type ↔ r.rule.HasType s name type :=
    fun _ _ => lookup_eq_some_iff_of_typePremises typed
  have bound := checkBound_eq_ok_iff.mp bound
  obtain ⟨known, new⟩ := (exists_typeConclusion_iff _ bound).mp ⟨_, _, concluded⟩
  have length := (typePremises_spec typed).2.1.length_eq
  refine ⟨⟨declared, consistent, fun name isArg => ?_, fun R isR => ?_, new⟩,
    (exists_pathsFrom_iff length.symm).mp ⟨_, made⟩⟩
  · obtain ⟨type, known⟩ := bound name isArg
    exact (exists_hasType_iff declared).mp ⟨type, (isType name type).mp known⟩
  · obtain ⟨arity, fits⟩ := (typed_args_iff_of_bound bound).mp (known R isR)
    exact ⟨arity, fun i name type at_ hasType =>
      fits i name type at_ ((isType name type).mpr hasType)⟩

/-- A rule that is well typed and connected passes every check. -/
theorem WellTyped.exists_compile (wellTyped : rule.WellTyped s) (connected : rule.Connected) :
    ∃ r s', rule.compile s = (.ok r, s') := by
  obtain ⟨⟨relations, types⟩, typed⟩ :
      ∃ result, typePremises rule.text s rule.premises [] = .ok result :=
    exists_typePremises_iff.mpr ⟨wellTyped.declared, wellTyped.consistent⟩
  have isType : ∀ name type, types.lookup name = some type ↔ rule.HasType s name type :=
    fun _ _ => lookup_eq_some_iff_of_typePremises typed
  have bound : ∀ name, .var name ∈ rule.conclusion.args →
      ∃ type, types.lookup name = some type := by
    intro name isArg
    obtain ⟨type, hasType⟩ := (exists_hasType_iff wellTyped.declared).mpr
      (wellTyped.bound name isArg)
    exact ⟨type, (isType name type).mpr hasType⟩
  have fits : ∀ R, s.named? rule.conclusion.relation = some R →
      Arg.Typed types rule.conclusion.args R.argTypes := by
    intro R isR
    obtain ⟨arity, fits⟩ := wellTyped.fits R isR
    exact (typed_args_iff_of_bound bound).mpr
      ⟨arity, fun i name type at_ known => fits i name type at_ ((isType name type).mp known)⟩
  obtain ⟨relation, s', concluded⟩ := (exists_typeConclusion_iff rule.text bound).mpr
    ⟨fits, wellTyped.inferable⟩
  have length := (typePremises_spec typed).2.1.length_eq
  obtain ⟨paths, made⟩ : ∃ paths, pathsFrom rule.text (.ofPremises rule.premises) relations types
      0 relations = .ok paths :=
    (exists_pathsFrom_iff length.symm).mpr connected
  exact ⟨⟨rule, relations, relation, types, paths⟩, s',
    compile_eq_ok_iff.mpr ⟨typed, checkBound_eq_ok_iff.mpr bound, concluded, made, rfl⟩⟩

/-- A rule compiles just if it is well typed and connected, and then it has found out the types of
its variables and the relation of its conclusion. -/
theorem compile_iff_wellTyped (rule : Rule) (s : Schema) :
    ((∃ r, (rule.compile s).1 = .ok r) ↔ rule.WellTyped s ∧ rule.Connected) ∧
      ∀ r, (rule.compile s).1 = .ok r → rule.Infers s r (rule.compile s).2 := by
  refine ⟨⟨?_, ?_⟩, fun r compiled => infers_of_compile (Prod.ext compiled rfl)⟩
  · rintro ⟨r, compiled⟩
    exact wellTyped_of_compile (Prod.ext compiled rfl)
  · rintro ⟨wellTyped, connected⟩
    obtain ⟨r, s', compiled⟩ := wellTyped.exists_compile connected
    exact ⟨r, congrArg Prod.fst compiled⟩

/-- Points, links between them, and a mark on some of them. -/
def marked : Schema :=
  ((Schema.empty.declareByNames "link" ["point", "point"]).2.declareByNames "mark" ["point"]).2

/-- A link to a marked point is seen, together with the point. -/
def seenRule : Rule :=
  ⟨[⟨"link", some "f", [.var "x", .var "y"]⟩, ⟨"mark", none, [.var "y"]⟩],
    ⟨"seen", none, [.var "f", .var "y"]⟩, none⟩

/-- The rule declares its conclusion with the type of the witnesses of links and that of points. -/
theorem compile_seenRule : (seenRule.WellTyped marked ∧ seenRule.Connected) ∧
    ∃ r, (seenRule.compile marked).1 = .ok r ∧
      seenRule.Infers marked r (seenRule.compile marked).2 ∧
      (r.variableTypes = [("f", ⟨1⟩), ("x", ⟨0⟩), ("y", ⟨0⟩)] ∧
        (seenRule.compile marked).2.relation? r.conclusionRelation =
          some ⟨"seen", [⟨1⟩, ⟨0⟩], ⟨3⟩⟩) := by
  have compiles : ((seenRule.compile marked).1.toOption.map fun r => (r.variableTypes,
      (seenRule.compile marked).2.relation? r.conclusionRelation)) =
        some ([("f", ⟨1⟩), ("x", ⟨0⟩), ("y", ⟨0⟩)], some ⟨"seen", [⟨1⟩, ⟨0⟩], ⟨3⟩⟩) := by
    decide +kernel
  obtain ⟨iff, infers⟩ := compile_iff_wellTyped seenRule marked
  cases answer : (seenRule.compile marked).1 with
  | error failure => simp [answer, Except.toOption] at compiles
  | ok r =>
    simp only [answer, Except.toOption, Option.map_some, Option.some.injEq, Prod.mk.injEq]
      at compiles
    exact ⟨iff.mp ⟨r, answer⟩, r, rfl, infers r answer, compiles⟩

end Rule

end ScoredChaining
