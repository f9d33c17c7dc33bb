import ScoredChaining.Proofs.Rule.Instances

/-!
Facts and rules read by their values.

An atom is a relation applied to values. A live fact of a graph says one atom (`Graph.atom?`), and
no two facts say the same.

* `Atom.Closed`: a set of atoms has the conclusions of the instances of rules whose premises it has.
* `CompiledRule.Filled.atom?`, `CompiledRule.Concludes.atom?`: facts that fill the premises of a rule
  say an instance of it, and so does the conclusion drawn from them.
* `CompiledRule.Typed.exists_filled`: facts that say the premises of an instance fill them.
-/

namespace ScoredChaining

/-- A relation applied to values. -/
structure Atom where
  relation : String
  values : List Value
  deriving Repr, DecidableEq, Inhabited

/-- The value that an argument stands for. -/
def Arg.value (ρ : String → Value) : Arg → Value
  | .var name => ρ name
  | .const c => c

/-- A term with values for its variables. -/
def Term.atom (ρ : String → Value) (t : Term) : Atom :=
  ⟨t.relation, t.args.map (Arg.value ρ)⟩

/-- The instance of a premise. -/
def Rule.premiseAtom (rule : Rule) (ρ : String → Value) (i : Nat) : Atom :=
  (rule.premises.getD i default).atom ρ

theorem Rule.premiseAtom_of_getElem? {rule : Rule} {i : Nat} {t : Term}
    (isPremise : rule.premises[i]? = some t) (ρ : String → Value) :
    rule.premiseAtom ρ i = t.atom ρ := by
  rw [premiseAtom, List.getD_eq_getElem?_getD, isPremise, Option.getD_some]

/-- The set has the conclusion of every admitted instance of a rule whose premises it has. -/
def Atom.Closed (admits : Rule → (String → Value) → Prop) (rules : List Rule) (S : Set Atom) :
    Prop :=
  ∀ rule ∈ rules, ∀ ρ, admits rule ρ → (∀ t ∈ rule.premises, t.atom ρ ∈ S) →
    rule.conclusion.atom ρ ∈ S

/-- The values of live nodes. -/
def NodeStore.values? (s : NodeStore) : List NodeId → Option (List Value)
  | [] => some []
  | n :: rest => do
    let node ← s.get? n
    let values ← s.values? rest
    return node.value :: values

/-- What a live fact says. -/
def Graph.atom? (g : Graph) (id : EdgeId) : Option Atom := do
  let e ← g.edges.get? id
  let R ← g.schema.relation? e.relation
  let values ← g.nodes.values? e.tail
  return ⟨R.name, values⟩

theorem NodeStore.Holds.values? {s : NodeStore} {types : List TypeId} {tail : List NodeId}
    {values : List Value} (holds : s.Holds types tail values) : s.values? tail = some values := by
  induction holds with
  | nil => rfl
  | cons live _ ih => simp [NodeStore.values?, live, ih]

namespace Graph

variable {g g' : Graph} {id : EdgeId} {e : Edge} {R : Relation} {values : List Value} {a : Atom}

theorem Fits.atom? (fits : g.Fits e R values) (live : g.edges.get? id = some e) :
    g.atom? id = some ⟨R.name, values⟩ := by
  simp [Graph.atom?, live, fits.relation, fits.holds.values?]

/-- A fact that says an atom is live, of its relation and with its values. -/
theorem WellFormed.fits_of_atom? (wf : g.WellFormed) (isAtom : g.atom? id = some a) :
    ∃ e R, g.edges.get? id = some e ∧ g.Fits e R a.values ∧ R.name = a.relation := by
  obtain ⟨e, live, _⟩ := Option.bind_eq_some_iff.mp isAtom
  obtain ⟨R, values, fits⟩ := wf.fits live
  obtain rfl := Option.some.inj ((fits.atom? live).symm.trans isAtom)
  exact ⟨e, R, live, fits, rfl⟩

/-- Every live fact says an atom. -/
theorem WellFormed.exists_atom (wf : g.WellFormed) (live : g.edges.get? id = some e) :
    ∃ a, g.atom? id = some a := by
  obtain ⟨R, values, fits⟩ := wf.fits live
  exact ⟨_, fits.atom? live⟩

/-- A fact goes on saying what it says while the graph grows. -/
theorem WellFormed.atom?_mono (wf : g.WellFormed) (extends_ : g.Extends g')
    (isAtom : g.atom? id = some a) : g'.atom? id = some a := by
  obtain ⟨e, R, live, fits, name⟩ := wf.fits_of_atom? isAtom
  rw [(fits.mono extends_).atom? (extends_.edges _ _ live), name]

/-- No two facts say the same. -/
theorem WellFormed.atom?_injective (wf : g.WellFormed) {d : EdgeId} (isAtom : g.atom? id = some a)
    (isAtom' : g.atom? d = some a) : id = d := by
  obtain ⟨e, R, live, fits, name⟩ := wf.fits_of_atom? isAtom
  obtain ⟨e', R', live', fits', name'⟩ := wf.fits_of_atom? isAtom'
  have same := wf.schema.eq_of_name fits.relation fits'.relation (name.trans name'.symm)
  obtain rfl : R = R' := by
    have := fits.relation.symm.trans (same ▸ fits'.relation)
    simpa using this
  exact wf.edges.unique live live' same (fits.holds.tail_unique wf.nodes fits'.holds)

/-- The values of the nodes that variables stand for. -/
def reading (g : Graph) (σ : Valuation) (name : String) : Value :=
  ((g.nodes.get? (σ name)).map Node.value).getD default

theorem reading_eq {σ : Valuation} {name : String} {type : TypeId} {v : Value}
    (live : g.nodes.get? (σ name) = some ⟨type, v⟩) : g.reading σ name = v := by
  simp [reading, live]

end Graph

/-! ### From nodes to values -/

/-- The images of arguments have the values that the arguments stand for. -/
theorem Arg.Images.values {g : Graph} {σ : Valuation} {args : List Arg} {types : List TypeId}
    {tail : List NodeId} {values : List Value} (images : Arg.Images g σ args types tail)
    (holds : g.nodes.Holds types tail values) : values = args.map (Arg.value (g.reading σ)) := by
  induction images generalizing values with
  | nil =>
    cases holds
    rfl
  | var _ ih =>
    cases holds with
    | cons live holds => rw [List.map_cons, ← ih holds, Arg.value, Graph.reading_eq live]
  | const live _ ih =>
    cases holds with
    | @cons _ _ value _ _ _ live' holds =>
      obtain rfl : value = _ := congrArg Node.value (Option.some.inj (live'.symm.trans live))
      rw [List.map_cons, ← ih holds, Arg.value]

namespace CompiledRule

variable {facts : FactBase} {g : Graph} {r : CompiledRule} {α : Nat → EdgeId} {σ : Valuation}
  {ρ : String → Value}

/-- A fact that fills a premise says the instance of it. -/
theorem Filled.atom? (filled : r.Filled facts g α σ) (typed : r.Typed g.schema)
    (wf : g.WellFormed) (live : ∀ id e, facts.edge? id = some e → g.edges.get? id = some e) {i : Nat}
    {t : Term} (isPremise : r.rule.premises[i]? = some t) :
    g.atom? (α i) = some (t.atom (g.reading σ)) := by
  obtain ⟨e, committed, isRelation, inst⟩ := filled i t isPremise
  obtain ⟨R, values, fits⟩ := wf.fits (live _ _ committed)
  obtain ⟨relation, _, R', declared, isR, arity, _⟩ := typed.premise isPremise
  obtain rfl := Option.some.inj (declared.symm.trans isRelation)
  obtain rfl := Option.some.inj (isR.symm.trans fits.relation)
  obtain ⟨R', isR', name⟩ := Schema.relation?_of_find? isRelation
  obtain rfl := Option.some.inj (isR.symm.trans isR')
  rw [fits.atom? (live _ _ committed), Term.atom, name]
  congr 2
  refine List.ext_getElem? fun k => ?_
  rw [List.getElem?_map]
  cases at_ : t.args[k]? with
  | none =>
    rw [List.getElem?_eq_none_iff] at at_
    rw [Option.map_none, List.getElem?_eq_none_iff, fits.holds.length_values]
    exact Nat.le_trans (Nat.le_of_eq arity.symm) at_
  | some a =>
    obtain ⟨n, onFact, denotes⟩ := inst (.tail k) a at_
    obtain ⟨type, v, _, isValue, liveNode⟩ := fits.holds.get onFact
    rw [isValue, Option.map_some]
    congr 1
    cases a with
    | var name =>
      obtain rfl : σ name = n := denotes
      exact (Graph.reading_eq liveNode).symm
    | const c =>
      obtain ⟨_, liveNode'⟩ := Graph.valueOf_eq_ok_iff.mp denotes
      exact congrArg Node.value (Option.some.inj (liveNode.symm.trans liveNode'))

/-- The conclusion of a rule says the instance of it. -/
theorem Concludes.atom? {id : EdgeId} (concludes : r.Concludes g σ id) (wf : g.WellFormed) :
    g.atom? id = some (r.rule.conclusion.atom (g.reading σ)) := by
  obtain ⟨e, R, live, isRelation, isR, images⟩ := concludes
  obtain ⟨R', values, fits⟩ := wf.fits live
  obtain rfl := Option.some.inj (isR.symm.trans fits.relation)
  obtain ⟨R', isR', name⟩ := Schema.relation?_of_find? isRelation
  obtain rfl := Option.some.inj (isR.symm.trans isR')
  rw [fits.atom? live, Term.atom, name, images.values fits.holds]

end CompiledRule

/-! ### From values to nodes -/

/-- Every variable of a typed conclusion has a type. -/
theorem Arg.Typed.lookup {types : VariableTypes} {args : List Arg} {declared : List TypeId}
    (typed : Arg.Typed types args declared) {name : String} (mem : .var name ∈ args) :
    ∃ type, types.lookup name = some type := by
  induction args generalizing declared with
  | nil => cases mem
  | cons a rest ih =>
    cases declared with
    | nil => cases a <;> cases typed
    | cons type declared =>
      cases a with
      | const c =>
        rcases List.mem_cons.mp mem with same | later
        · cases same
        · exact ih typed later
      | var other =>
        obtain ⟨isType, typedRest⟩ := typed
        rcases List.mem_cons.mp mem with same | later
        · exact ⟨type, Arg.var.inj same ▸ isType⟩
        · exact ih typedRest later

namespace CompiledRule

variable {facts : FactBase} {g : Graph} {r : CompiledRule} {α : Nat → EdgeId}
  {ρ : String → Value}

/-- A fact that says the instance of a premise fits the relation of the premise. -/
theorem Typed.fits_of_atom (typed : r.Typed g.schema) (wf : g.WellFormed) {i : Nat} {t : Term}
    (isPremise : r.rule.premises[i]? = some t) {id : EdgeId}
    (isAtom : g.atom? id = some (t.atom ρ)) :
    ∃ e R, g.edges.get? id = some e ∧ g.Fits e R (t.args.map (Arg.value ρ)) ∧
      g.schema.find? t.relation = some e.relation ∧
      ∀ p name, t.argAt? p = some (.var name) →
        ∃ type, R.typeAt? p = some type ∧ r.variableTypes.lookup name = some type := by
  obtain ⟨e, R, live, fits, name⟩ := wf.fits_of_atom? isAtom
  obtain ⟨relation, _, R', declared, isR, _, types⟩ := typed.premise isPremise
  obtain ⟨R'', isR', name'⟩ := Schema.relation?_of_find? declared
  obtain rfl := Option.some.inj (isR.symm.trans isR')
  obtain rfl := wf.schema.eq_of_name isR fits.relation (name'.trans name.symm)
  obtain rfl := Option.some.inj (isR.symm.trans fits.relation)
  exact ⟨e, R', live, fits, declared, fun p name at_ => types p name (Term.mem_positions.mpr at_)⟩

/-- Where facts say the instances of the premises, every variable has a node of its type and
value. -/
theorem Typed.exists_node (typed : r.Typed g.schema) (wf : g.WellFormed)
    (unprimed : ∀ t ∈ r.rule.premises, t.factVariable = none)
    (isAtom : ∀ i t, r.rule.premises[i]? = some t → g.atom? (α i) = some (t.atom ρ)) {name : String}
    {type : TypeId} (isType : r.variableTypes.lookup name = some type) :
    ∃ n, g.nodes.get? n = some ⟨type, ρ name⟩ := by
  obtain ⟨t, mem, p, placed⟩ := typed.placed name type isType
  obtain ⟨i, isPremise⟩ := List.mem_iff_getElem?.mp mem
  obtain ⟨e, R, live, fits, _, types⟩ := typed.fits_of_atom wf isPremise (isAtom i t isPremise)
  have at_ := Term.mem_positions.mp placed
  obtain ⟨type', atType, isType'⟩ := types p name at_
  obtain rfl : type = type' := Option.some.inj (isType.symm.trans isType')
  cases p with
  | head => simp [Term.argAt?, unprimed t mem] at at_
  | tail k =>
    obtain ⟨bound, _⟩ := List.getElem?_eq_some_iff.mp atType
    have bound : k < e.tail.length := by rwa [fits.holds.length_tail]
    obtain ⟨type', value, atType', isValue, liveNode⟩ :=
      fits.holds.get (List.getElem?_eq_getElem bound)
    obtain rfl : type = type' := Option.some.inj (atType.symm.trans atType')
    obtain rfl : ρ name = value := by
      rw [List.getElem?_map, show t.args[k]? = some (.var name) from at_] at isValue
      simpa [Arg.value] using isValue
    exact ⟨_, liveNode⟩

/-- Committed facts that say the premises of an instance of a rule fill them. -/
theorem Typed.exists_filled (typed : r.Typed g.schema) (wf : g.WellFormed)
    (unprimed : ∀ t ∈ r.rule.premises, t.factVariable = none)
    (live : ∀ id e, facts.edge? id = some e → g.edges.get? id = some e)
    (committed : ∀ i t, r.rule.premises[i]? = some t → ∃ e, facts.edge? (α i) = some e)
    (isAtom : ∀ i t, r.rule.premises[i]? = some t → g.atom? (α i) = some (t.atom ρ)) :
    ∃ σ, r.Filled facts g α σ ∧
      r.rule.conclusion.atom (g.reading σ) = r.rule.conclusion.atom ρ := by
  have nodes : ∀ name, ∃ n, ∀ type, r.variableTypes.lookup name = some type →
      g.nodes.get? n = some ⟨type, ρ name⟩ := by
    intro name
    cases isType : r.variableTypes.lookup name with
    | none => exact ⟨default, by simp⟩
    | some type =>
      obtain ⟨n, liveNode⟩ := typed.exists_node wf unprimed isAtom isType
      refine ⟨n, ?_⟩
      intro other same
      obtain rfl := Option.some.inj same
      exact liveNode
  choose σ node using nodes
  refine ⟨σ, fun i t isPremise => ?_, ?_⟩
  · obtain ⟨e, found⟩ := committed i t isPremise
    obtain ⟨e', R, live', fits, declared, types⟩ :=
      typed.fits_of_atom wf isPremise (isAtom i t isPremise)
    obtain rfl : e = e' := Option.some.inj ((live _ _ found).symm.trans live')
    refine ⟨e, found, declared, ?_⟩
    intro p a at_
    cases p with
    | head => simp [Term.argAt?, unprimed t (List.mem_of_getElem? isPremise)] at at_
    | tail k =>
      have isArg : t.args[k]? = some a := at_
      have bound : k < e.tail.length := by
        rw [fits.holds.length_tail, ← fits.holds.length_values, List.length_map]
        exact (List.getElem?_eq_some_iff.mp isArg).1
      obtain ⟨type, value, atType, isValue, liveNode⟩ :=
        fits.holds.get (List.getElem?_eq_getElem bound)
      obtain rfl : a.value ρ = value := by
        rw [List.getElem?_map, isArg] at isValue
        simpa using isValue
      refine ⟨e.tail[k], List.getElem?_eq_getElem bound, ?_⟩
      cases a with
      | var name =>
        obtain ⟨type', atType', isType⟩ := types _ name at_
        obtain rfl : type = type' := Option.some.inj (atType.symm.trans atType')
        exact wf.nodes.unique (node name type isType) liveNode
      | const c => exact Graph.valueOf_eq_ok_iff.mpr ⟨type, liveNode⟩
  · obtain ⟨R, _, _, typedArgs⟩ := typed.conclusion
    simp only [Term.atom, Atom.mk.injEq, true_and]
    apply List.map_congr_left
    intro a mem
    cases a with
    | var name =>
      obtain ⟨type, isType⟩ := typedArgs.lookup mem
      exact Graph.reading_eq (node name type isType)
    | const c => rfl

end CompiledRule

end ScoredChaining
