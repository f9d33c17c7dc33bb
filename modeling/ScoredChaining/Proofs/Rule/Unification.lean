import ScoredChaining.Proofs.Graph.Facts
import ScoredChaining.Proofs.Rule.Typing
import ScoredChaining.Rule.Firing

/-!
Unification and conclusion.

A valuation gives each variable a node. A fact is an instance of a term under it (`Term.Instance`)
if every argument stands for the node at its position.

* `RuleGenerator.unify_sound`, `RuleGenerator.unify_complete`: unification finds a valuation just if
  there is one.
* `RuleGenerator.generate_spec`: given facts of the relations of the premises, a rule draws no
  conclusion or exactly one, which is the conclusion under a valuation that unifies them.
-/

namespace ScoredChaining

/-- A node for each variable. -/
abbrev Valuation := String → NodeId

/-- The argument stands for the node. -/
def Arg.Denotes (g : Graph) (σ : Valuation) : Arg → NodeId → Prop
  | .var name, n => σ name = n
  | .const c, n => g.valueOf n = .ok c

/-- The fact has, at each position of the term, a node that the argument there stands for. -/
def Term.Instance (g : Graph) (σ : Valuation) (t : Term) (e : Edge) : Prop :=
  ∀ p a, t.argAt? p = some a → ∃ n, e.nodeAt? p = some n ∧ a.Denotes g σ n

/-- The nodes that arguments of these types stand for. -/
inductive Arg.Images (g : Graph) (σ : Valuation) : List Arg → List TypeId → List NodeId → Prop where
  | nil : Images g σ [] [] []
  | var {name : String} {type : TypeId} {args : List Arg} {types : List TypeId}
      {tail : List NodeId} : Images g σ args types tail →
      Images g σ (.var name :: args) (type :: types) (σ name :: tail)
  | const {c : Value} {n : NodeId} {type : TypeId} {args : List Arg} {types : List TypeId}
      {tail : List NodeId} : g.nodes.get? n = some ⟨type, c⟩ → Images g σ args types tail →
      Images g σ (.const c :: args) (type :: types) (n :: tail)

namespace Term

variable {t : Term} {p : Position} {a : Arg}

theorem mem_placedFrom {i : Nat} {args : List Arg} :
    (p, a) ∈ placedFrom i args ↔ ∃ k, args[k]? = some a ∧ p = .tail (i + k) := by
  induction args generalizing i with
  | nil => simp [placedFrom]
  | cons b rest ih =>
    simp only [placedFrom, List.mem_cons, Prod.mk.injEq, ih]
    constructor
    · rintro (⟨rfl, rfl⟩ | ⟨k, found, rfl⟩)
      · exact ⟨0, by simp⟩
      · exact ⟨k + 1, by simpa using found, by congr 1; omega⟩
    · rintro ⟨k, found, rfl⟩
      cases k with
      | zero => exact .inl (by simpa [eq_comm] using found)
      | succ k => exact .inr ⟨k, by simpa using found, by congr 1; omega⟩

/-- The positions of a term are those at which it has an argument. -/
theorem mem_positions : (p, a) ∈ t.positions ↔ t.argAt? p = some a := by
  unfold positions argAt?
  cases p with
  | head => cases t.factVariable <;> simp [mem_placedFrom, eq_comm]
  | tail i => cases t.factVariable <;> simp [mem_placedFrom]

/-- At the first position of a variable stands the variable. -/
theorem argAt?_of_positionOf? {name : String} (found : t.positionOf? name = some p) :
    t.argAt? p = some (.var name) := by
  obtain ⟨⟨q, b⟩, first, rfl⟩ := Option.map_eq_some_iff.mp found
  obtain rfl : b = .var name := by simpa using List.find?_some first
  exact mem_positions.mp (List.mem_of_find?_eq_some first)

theorem instance_iff {g : Graph} {σ : Valuation} {e : Edge} : t.Instance g σ e ↔
    ∀ x ∈ t.positions, ∃ n, e.nodeAt? x.1 = some n ∧ x.2.Denotes g σ n :=
  ⟨fun inst _ mem => inst _ _ (mem_positions.mp mem),
    fun all p a at_ => all (p, a) (mem_positions.mpr at_)⟩

end Term

namespace RuleGenerator

variable {g : Graph} {σ : Valuation} {e : Edge} {env env' : Environment}

/-- The valuation agrees with what is known. -/
def Respects (σ : Valuation) (env : Environment) : Prop :=
  ∀ name n, env.lookup name = some n → σ name = n

theorem Respects.nil : Respects σ [] := by
  intro name n found
  cases found

/-- The argument is known to stand for the node. -/
def Known (g : Graph) (env : Environment) : Arg → NodeId → Prop
  | .var name, n => env.lookup name = some n
  | .const c, n => g.valueOf n = .ok c

theorem Known.denotes {a : Arg} {n : NodeId} (known : Known g env a n) (respects : Respects σ env) :
    a.Denotes g σ n := by
  cases a with
  | var name => exact respects name n known
  | const c => exact known

theorem Known.mono {a : Arg} {n : NodeId} (known : Known g env a n)
    (refines : Rule.Refines env env') : Known g env' a n := by
  cases a with
  | var name => exact refines name n known
  | const c => exact known

/-! ### One term -/

theorem unifyTerm_sound {ps : List (Position × Arg)}
    (unified : unifyTerm g e ps env = .ok (some env')) :
    Rule.Refines env env' ∧ ∀ x ∈ ps, ∃ n, e.nodeAt? x.1 = some n ∧ Known g env' x.2 n := by
  induction ps generalizing env with
  | nil =>
    obtain rfl := Option.some.inj (Except.ok.inj unified)
    exact ⟨.refl env, by simp⟩
  | cons x rest ih =>
    obtain ⟨p, a⟩ := x
    rw [unifyTerm] at unified
    split at unified
    · cases unified
    · rename_i n at_
      cases a with
      | const c =>
        simp only at unified
        split at unified
        · cases unified
        · rename_i v value
          split at unified
          · rename_i same
            obtain ⟨refines, covers⟩ := ih unified
            exact ⟨refines, List.forall_mem_cons.mpr ⟨⟨n, at_, same ▸ value⟩, covers⟩⟩
          · cases unified
      | var name =>
        simp only at unified
        split at unified
        · rename_i known found
          split at unified
          · rename_i same
            obtain ⟨refines, covers⟩ := ih unified
            exact ⟨refines, List.forall_mem_cons.mpr ⟨⟨n, at_, refines _ _ (same ▸ found)⟩, covers⟩⟩
          · cases unified
        · rename_i new
          obtain ⟨refines, covers⟩ := ih unified
          have added : (env ++ [(name, n)]).lookup name = some n := by
            rw [Rule.lookup_append_single, new, if_pos rfl, Option.none_or]
          exact ⟨(Rule.Refines.append_single env name n).trans refines,
            List.forall_mem_cons.mpr ⟨⟨n, at_, refines _ _ added⟩, covers⟩⟩

theorem unifyTerm_complete {ps : List (Position × Arg)}
    (fits : ∀ x ∈ ps, ∃ n, e.nodeAt? x.1 = some n ∧ x.2.Denotes g σ n)
    (respects : Respects σ env) :
    ∃ env', unifyTerm g e ps env = .ok (some env') ∧ Respects σ env' := by
  induction ps generalizing env with
  | nil => exact ⟨env, rfl, respects⟩
  | cons x rest ih =>
    obtain ⟨p, a⟩ := x
    obtain ⟨⟨n, at_, denotes⟩, fitsRest⟩ := List.forall_mem_cons.mp fits
    simp only [unifyTerm, at_]
    cases a with
    | const c =>
      have value : g.valueOf n = .ok c := denotes
      simp only [value, if_true]
      exact ih fitsRest respects
    | var name =>
      have same : σ name = n := denotes
      cases found : env.lookup name with
      | some known =>
        simp only [found, (respects name known found).symm.trans same, if_true]
        exact ih fitsRest respects
      | none =>
        simp only [found]
        apply ih fitsRest
        intro other m known
        rw [Rule.lookup_append_single] at known
        rcases Option.or_eq_some_iff.mp known with old | ⟨_, added⟩
        · exact respects other m old
        · split at added
          · rename_i isName
            rw [isName, same]
            exact Option.some.inj added
          · cases added

/-- Unification with a fact whose nodes are live does not fail. -/
theorem unifyTerm_total (live : ∀ p n, e.nodeAt? p = some n → ∃ x, g.nodes.get? n = some x)
    (ps : List (Position × Arg)) (env : Environment) : ∃ r, unifyTerm g e ps env = .ok r := by
  induction ps generalizing env with
  | nil => exact ⟨_, rfl⟩
  | cons x rest ih =>
    obtain ⟨p, a⟩ := x
    rw [unifyTerm]
    split
    · exact ⟨_, rfl⟩
    · rename_i n at_
      cases a with
      | const c =>
        obtain ⟨⟨t, v⟩, found⟩ := live p n at_
        simp only [Graph.valueOf_eq_ok_iff.mpr ⟨t, found⟩]
        split
        · exact ih env
        · exact ⟨_, rfl⟩
      | var name =>
        simp only
        split
        · split
          · exact ih env
          · exact ⟨_, rfl⟩
        · exact ih _

/-! ### All premises -/

/-- Each fact is an instance of the premise that it is paired with. -/
def Instances (g : Graph) (σ : Valuation) (premises : List Term) (pairs : List (EdgeId × Nat)) :
    Prop :=
  ∀ x ∈ pairs, ∃ e t, g.edges.get? x.1 = some e ∧ premises[x.2]? = some t ∧ t.Instance g σ e

variable {premises : List Term} {pairs : List (EdgeId × Nat)}

theorem unify_sound (unified : unify g premises pairs env = .ok (some env')) :
    Rule.Refines env env' ∧ ∀ x ∈ pairs, ∃ e t, g.edges.get? x.1 = some e ∧
      premises[x.2]? = some t ∧
        ∀ y ∈ t.positions, ∃ n, e.nodeAt? y.1 = some n ∧ Known g env' y.2 n := by
  induction pairs generalizing env with
  | nil =>
    obtain rfl := Option.some.inj (Except.ok.inj unified)
    exact ⟨.refl env, by simp⟩
  | cons x rest ih =>
    obtain ⟨id, i⟩ := x
    rw [unify] at unified
    split at unified
    · cases unified
    · rename_i e live
      split at unified
      · cases unified
      · rename_i t isPremise
        split at unified
        · cases unified
        · cases unified
        · rename_i env₁ unified₁
          obtain ⟨refines₁, covers₁⟩ := unifyTerm_sound unified₁
          obtain ⟨refines, covers⟩ := ih unified
          refine ⟨refines₁.trans refines, List.forall_mem_cons.mpr ⟨?_, covers⟩⟩
          refine ⟨e, t, Graph.edge_eq_ok_iff.mp live, isPremise, ?_⟩
          intro y mem
          obtain ⟨n, at_, known⟩ := covers₁ y mem
          exact ⟨n, at_, known.mono refines⟩

theorem unify_complete (instances : Instances g σ premises pairs) (respects : Respects σ env) :
    ∃ env', unify g premises pairs env = .ok (some env') ∧ Respects σ env' := by
  induction pairs generalizing env with
  | nil => exact ⟨env, rfl, respects⟩
  | cons x rest ih =>
    obtain ⟨id, i⟩ := x
    obtain ⟨⟨e, t, live, isPremise, inst⟩, instancesRest⟩ := List.forall_mem_cons.mp instances
    obtain ⟨env₁, unified₁, respects₁⟩ := unifyTerm_complete (Term.instance_iff.mp inst) respects
    simp only [unify, Graph.edge_eq_ok_iff.mpr live, isPremise, unified₁]
    exact ih instancesRest respects₁

/-- The nodes of a live fact are live. -/
theorem live_of_nodeAt? (wf : g.WellFormed) {id : EdgeId} (live : g.edges.get? id = some e)
    {p : Position} {n : NodeId} (at_ : e.nodeAt? p = some n) :
    ∃ R type v, g.schema.relation? e.relation = some R ∧ R.typeAt? p = some type ∧
      g.nodes.get? n = some ⟨type, v⟩ := by
  obtain ⟨R, values, fits⟩ := wf.fits live
  cases p with
  | head =>
    obtain rfl : e.head = n := by simpa [Edge.nodeAt?] using at_
    exact ⟨R, R.witnessType, _, fits.relation, rfl, fits.head⟩
  | tail i =>
    obtain ⟨type, v, isType, _, found⟩ := fits.holds.get at_
    exact ⟨R, type, v, fits.relation, isType, found⟩

theorem unify_total (wf : g.WellFormed)
    (live : ∀ x ∈ pairs, ∃ e, g.edges.get? x.1 = some e) (env : Environment) :
    ∃ r, unify g premises pairs env = .ok r := by
  induction pairs generalizing env with
  | nil => exact ⟨_, rfl⟩
  | cons x rest ih =>
    obtain ⟨⟨e, liveE⟩, liveRest⟩ := List.forall_mem_cons.mp live
    simp only [unify, Graph.edge_eq_ok_iff.mpr liveE]
    split
    · exact ⟨_, rfl⟩
    · rename_i t _
      obtain ⟨r, unified⟩ := unifyTerm_total (g := g) (e := e) (fun p n at_ => by
        obtain ⟨_, _, _, _, _, found⟩ := live_of_nodeAt? wf liveE at_
        exact ⟨_, found⟩) t.positions env
      rw [unified]
      cases r with
      | none => exact ⟨_, rfl⟩
      | some env₁ => exact ih liveRest env₁

/-! ### The conclusion -/

/-- Every typed variable is known, as a live node of its type. -/
def TypedBy (g : Graph) (types : VariableTypes) (env : Environment) : Prop :=
  ∀ name type, types.lookup name = some type →
    ∃ n v, env.lookup name = some n ∧ g.nodes.get? n = some ⟨type, v⟩

theorem TypedBy.mono {g' : Graph} {types : VariableTypes} (extends_ : g.Extends g')
    (typed : TypedBy g types env) : TypedBy g' types env := by
  intro name type known
  obtain ⟨n, v, found, live⟩ := typed name type known
  exact ⟨n, v, found, extends_.nodes _ _ live⟩

/-- The nodes of a typed conclusion can be had, and are what its arguments stand for under every
valuation that agrees with what is known. -/
theorem conclusionNodes_spec (text : String) {types : VariableTypes} {args : List Arg}
    {declared : List TypeId} (wf : g.WellFormed) (typed : Arg.Typed types args declared)
    (known : TypedBy g types env) :
    Graph.Grows g (conclusionNodes text env args declared g).2 ∧
      ∃ tail values, (conclusionNodes text env args declared g).1 = .ok tail ∧
        (conclusionNodes text env args declared g).2.nodes.Holds declared tail values ∧
        ∀ g' σ, (conclusionNodes text env args declared g).2.Extends g' → Respects σ env →
          Arg.Images g' σ args declared tail := by
  induction args generalizing declared g with
  | nil =>
    cases declared with
    | nil => exact ⟨.refl wf, [], [], rfl, .nil, fun _ _ _ _ => .nil⟩
    | cons _ _ => simp [Arg.Typed] at typed
  | cons a args ih =>
    cases declared with
    | nil => cases a <;> simp [Arg.Typed] at typed
    | cons type declared =>
      cases a with
      | var name =>
        rw [Arg.Typed] at typed
        obtain ⟨n, v, found, live⟩ := known name type typed.1
        obtain ⟨grows, tail, values, ok, holds, images⟩ := ih wf typed.2 known
        simp only [conclusionNodes, found]
        generalize conclusionNodes text env args declared g = rest at grows ok holds images ⊢
        obtain ⟨result, g₁⟩ := rest
        obtain rfl : result = .ok tail := ok
        refine ⟨grows, n :: tail, v :: values, rfl, .cons (grows.extends_.nodes _ _ live) holds, ?_⟩
        intro g' σ extends_ respects
        exact respects name n found ▸ .var (images g' σ extends_ respects)
      | const c =>
        rw [Arg.Typed] at typed
        obtain ⟨grows₁, _, interned⟩ := Graph.internNode_spec wf type c .temporary
        obtain ⟨n, isN⟩ := Graph.internNode_temporary g type c
        simp only [conclusionNodes]
        generalize g.internNode type c .temporary = first at grows₁ interned isN ⊢
        obtain ⟨result, g₁⟩ := first
        obtain rfl : result = .ok n := isN
        obtain ⟨live, _⟩ := interned n rfl
        obtain ⟨grows, tail, values, ok, holds, images⟩ :=
          ih grows₁.wellFormed typed (known.mono grows₁.extends_)
        simp only
        generalize conclusionNodes text env args declared g₁ = rest at grows ok holds images ⊢
        obtain ⟨result, g₂⟩ := rest
        obtain rfl : result = .ok tail := ok
        have live₂ := grows.extends_.nodes _ _ live
        refine ⟨grows₁.trans grows, n :: tail, c :: values, rfl, .cons live₂ holds, ?_⟩
        intro g' σ extends_ respects
        exact .const (extends_.nodes _ _ live₂) (images g' σ extends_ respects)

/-- The candidate is the conclusion of the rule under the valuation, with the score of the rule. -/
def Concludes (r : RuleGenerator) (g : Graph) (σ : Valuation) (p : Proposal) : Prop :=
  ∃ e R, g.edges.get? p.edge = some e ∧ e.relation = r.rule.conclusionRelation ∧
    g.schema.relation? e.relation = some R ∧
    Arg.Images g σ r.rule.rule.conclusion.args R.argTypes e.tail ∧ p.score = r.scorer g e

/-- A typed rule draws its conclusion once the typed variables are known. -/
theorem conclude_spec (r : RuleGenerator) (wf : g.WellFormed) (typed : r.rule.Typed g.schema)
    (known : TypedBy g r.rule.variableTypes env) :
    Graph.Grows g (r.conclude env g).2 ∧ ∃ p, (r.conclude env g).1 = .ok [p] ∧
      ∀ σ, Respects σ env → r.Concludes (r.conclude env g).2 σ p := by
  obtain ⟨R, _, isR, typedArgs⟩ := typed.conclusion
  obtain ⟨grows₁, tail, values, ok, holds, images⟩ :=
    conclusionNodes_spec r.rule.rule.text wf typedArgs known
  simp only [conclude, Graph.relation_eq_ok_iff.mpr isR]
  generalize conclusionNodes r.rule.rule.text env r.rule.rule.conclusion.args R.argTypes g = first
    at grows₁ ok holds images ⊢
  obtain ⟨result, g₁⟩ := first
  obtain rfl : result = .ok tail := ok
  have isR₁ := grows₁.extends_.schema.relation isR
  obtain ⟨grows, made⟩ := Graph.makeEdge_spec grows₁.wellFormed r.rule.conclusionRelation tail
    .temporary
  obtain ⟨id, ok⟩ := Graph.makeEdge_temporary isR₁ holds
  simp only
  generalize g₁.makeEdge r.rule.conclusionRelation tail .temporary = second at grows made ok ⊢
  obtain ⟨result, g₂⟩ := second
  obtain rfl : result = .ok id := ok
  obtain ⟨head, live⟩ := made id rfl
  simp only [Graph.edge_eq_ok_iff.mpr live]
  refine ⟨grows₁.trans grows, _, rfl, ?_⟩
  intro σ respects
  exact ⟨_, R, live, rfl, grows.extends_.schema.relation isR₁,
    images g₂ σ grows.extends_ respects, rfl⟩

/-- The facts are live, and of the relations of the premises that they are paired with. -/
def Related (g : Graph) (rule : CompiledRule) (pairs : List (EdgeId × Nat)) : Prop :=
  ∀ x ∈ pairs, ∃ e, g.edges.get? x.1 = some e ∧ rule.premiseRelations[x.2]? = some e.relation

/-- Unification that meets every premise knows every typed variable. -/
theorem typedBy_of_unify {rule : CompiledRule} (wf : g.WellFormed) (typed : rule.Typed g.schema)
    (related : Related g rule pairs)
    (all : ∀ i, i < rule.rule.premises.length → ∃ id, (id, i) ∈ pairs)
    (unified : unify g rule.rule.premises pairs [] = .ok (some env)) :
    TypedBy g rule.variableTypes env := by
  intro name type isType
  obtain ⟨t, mem, p, at_⟩ := typed.placed name type isType
  obtain ⟨i, bound, isPremise⟩ := List.getElem_of_mem mem
  obtain ⟨id, paired⟩ := all i bound
  obtain ⟨_, covers⟩ := unify_sound unified
  obtain ⟨e, t', live, isPremise', fits⟩ := covers _ paired
  obtain rfl : t = t' := by
    simpa [List.getElem?_eq_getElem bound, isPremise] using isPremise'
  obtain ⟨n, atN, known⟩ := fits _ at_
  obtain ⟨R, type', v, isR, typeAt, found⟩ := live_of_nodeAt? wf live atN
  obtain ⟨e', live', isRelation⟩ := related _ paired
  obtain rfl : e = e' := Option.some.inj (live.symm.trans live')
  -- The type of the position is the type of the variable, since the premise is typed.
  obtain ⟨boundR, isRelation⟩ := List.getElem?_eq_some_iff.mp isRelation
  obtain ⟨R', _, isR', _, typedVars⟩ := typed.premises.get bound boundR
  simp only [List.get_eq_getElem, isPremise, isRelation] at isR' typedVars
  obtain rfl : R = R' := Option.some.inj (isR.symm.trans isR')
  obtain ⟨type'', typeAt', isType'⟩ := typedVars p name at_
  obtain rfl : type' = type'' := Option.some.inj (typeAt.symm.trans typeAt')
  obtain rfl : type = type' := Option.some.inj (isType.symm.trans isType')
  exact ⟨n, v, known, found⟩

/-- The facts that a rule is given, each paired with the premise that it is to fill. -/
def assignment (r : RuleGenerator) (bindings : List Binding) : List (EdgeId × Nat) :=
  (boundEdges bindings).zip r.path.termOrder

/-- A typed rule is given a fact of the right relation for every premise. -/
structure Fed (g : Graph) (r : RuleGenerator) (bindings : List Binding) : Prop where
  typed : r.rule.Typed g.schema
  length : (boundEdges bindings).length = r.path.termOrder.length
  order : r.path.termOrder.Perm (List.range r.rule.rule.premises.length)
  related : Related g r.rule (r.assignment bindings)

theorem Fed.mono {g' : Graph} {r : RuleGenerator} {bindings : List Binding}
    (extends_ : g.Extends g') (fed : Fed g r bindings) : Fed g' r bindings := by
  refine ⟨fed.typed.mono extends_.schema, fed.length, fed.order, ?_⟩
  intro x mem
  obtain ⟨e, live, isRelation⟩ := fed.related x mem
  exact ⟨e, extends_.edges _ _ live, isRelation⟩

/-- Every premise is paired with a fact. -/
theorem Fed.exists_pair {r : RuleGenerator} {bindings : List Binding} (fed : Fed g r bindings)
    {i : Nat} (bound : i < r.rule.rule.premises.length) : ∃ id, (id, i) ∈ r.assignment bindings := by
  obtain ⟨k, boundK, same⟩ := List.getElem_of_mem (fed.order.mem_iff.mpr (List.mem_range.mpr bound))
  have length := fed.length
  refine ⟨(boundEdges bindings)[k], ?_⟩
  rw [assignment, ← same, ← List.getElem_zip (h := by simp; omega)]
  exact List.getElem_mem _

/-- A rule draws no conclusion unless the facts unify, and then exactly one. -/
theorem generate_spec (r : RuleGenerator) {bindings : List Binding} (wf : g.WellFormed)
    (fed : Fed g r bindings) :
    Graph.Grows g (r.generate bindings g).2 ∧ ∃ proposals, (r.generate bindings g).1 = .ok proposals ∧
      (∀ p ∈ proposals, ∃ σ, Instances g σ r.rule.rule.premises (r.assignment bindings) ∧
        r.Concludes (r.generate bindings g).2 σ p) ∧
      ∀ σ, Instances g σ r.rule.rule.premises (r.assignment bindings) →
        ∃ p, proposals = [p] ∧ r.Concludes (r.generate bindings g).2 σ p := by
  obtain ⟨outcome, unified⟩ := unify_total wf
    (fun x mem => (fed.related x mem).imp fun _ => And.left) []
  have taken : unify g r.rule.rule.premises ((boundEdges bindings).zip r.path.termOrder) [] =
      .ok outcome := unified
  unfold generate
  simp only [fed.length, ne_eq, not_true_eq_false, if_false, taken]
  cases outcome with
  | none =>
    refine ⟨.refl wf, [], rfl, by simp, ?_⟩
    intro σ instances
    obtain ⟨env, unified', _⟩ := unify_complete instances .nil
    rw [unified] at unified'
    cases unified'
  | some env =>
    have known := typedBy_of_unify wf fed.typed fed.related (fun _ => fed.exists_pair) unified
    obtain ⟨grows, p, ok, concludes⟩ := conclude_spec r wf fed.typed known
    refine ⟨grows, [p], ok, fun q mem => ?_, fun σ instances => ⟨p, rfl, ?_⟩⟩
    · obtain rfl := List.mem_singleton.mp mem
      let σ : Valuation := fun name => (env.lookup name).getD default
      have respects : Respects σ env := fun name n found => by simp [σ, found]
      refine ⟨σ, fun x mem => ?_, concludes σ respects⟩
      obtain ⟨e, t, live, isPremise, fits⟩ := (unify_sound unified).2 x mem
      refine ⟨e, t, live, isPremise, Term.instance_iff.mpr fun y memY => ?_⟩
      obtain ⟨n, at_, known⟩ := fits y memY
      exact ⟨n, at_, known.denotes respects⟩
    · obtain ⟨env', unified', respects⟩ := unify_complete instances .nil
      obtain rfl : env = env' := by
        rw [unified] at unified'
        simpa using unified'
      exact concludes σ respects

end RuleGenerator

end ScoredChaining
