import ScoredChaining.Proofs.Engine.Acceptance
import ScoredChaining.Proofs.Engine.ExactlyOnce
import ScoredChaining.Proofs.Rule.Atoms

/-!
What the committed facts say, and what chaining makes of it.

* `Engine.content`: the atoms that the committed facts say, in the order of their commits.
* `Rule.Admitted`: the instance of a rule opens the path from the premise whose fact was committed
  last.
* `Engine.Accepts.closed`: when nothing is pending any more, the conclusions of the admitted
  instances are committed.
* `Engine.Accepts.sound`: a set of atoms that is closed under the admitted instances, and has what
  is committed by request, has all that is committed.
-/

namespace ScoredChaining

variable {Custom : Type} [Decider Custom]

/-- The instance of the rule opens the path from a premise such that no other of its premises comes
later in this order. -/
def Rule.Admitted (order : List Atom) (rule : Rule) (ρ : String → Value) : Prop :=
  ∃ root < rule.premises.length, rule.Opens root (rule.premiseAtom ρ) ∧
    ∃ earlier later, order = earlier ++ rule.premiseAtom ρ root :: later ∧
      ∀ t ∈ rule.premises, t.atom ρ ∉ later

/-- Some member of one list is the last of them in the other. -/
theorem exists_last {α : Type} {xs order : List α} (met : ∃ x ∈ xs, x ∈ order) :
    ∃ x ∈ xs, ∃ earlier later, order = earlier ++ x :: later ∧ ∀ y ∈ xs, y ∉ later := by
  induction order with
  | nil =>
    obtain ⟨x, _, mem⟩ := met
    cases mem
  | cons a rest ih =>
    by_cases later : ∃ x ∈ xs, x ∈ rest
    · obtain ⟨x, mem, earlier, later, split, last⟩ := ih later
      exact ⟨x, mem, a :: earlier, later, by rw [split, List.cons_append], last⟩
    · obtain ⟨x, mem, here⟩ := met
      refine ⟨x, mem, [], rest, ?_, fun y isX isLater => later ⟨y, isX, isLater⟩⟩
      rcases List.mem_cons.mp here with rfl | here
      · rfl
      · exact absurd ⟨x, mem, here⟩ later

/-- An instance is admitted if its premises come in the order and it opens all their paths. -/
theorem Rule.admitted_of_opens {order : List Atom} {rule : Rule} {ρ : String → Value}
    (nonempty : rule.premises ≠ []) (premises : ∀ t ∈ rule.premises, t.atom ρ ∈ order)
    (opens : ∀ root < rule.premises.length, rule.Opens root (rule.premiseAtom ρ)) :
    rule.Admitted order ρ := by
  obtain ⟨t, isPremise⟩ := List.exists_mem_of_ne_nil _ nonempty
  obtain ⟨a, isAtom, earlier, later, split, last⟩ :=
    exists_last ⟨t.atom ρ, List.mem_map_of_mem isPremise, premises t isPremise⟩
  obtain ⟨t, isPremise, rfl⟩ := List.mem_map.mp isAtom
  obtain ⟨root, at_⟩ := List.mem_iff_getElem?.mp isPremise
  obtain ⟨bound, _⟩ := List.getElem?_eq_some_iff.mp at_
  refine ⟨root, bound, opens root bound, earlier, later, ?_, ?_⟩
  · rw [split, Rule.premiseAtom_of_getElem? at_]
  · intro t isPremise
    exact last _ (List.mem_map_of_mem isPremise)

/-- An instance is admitted if its premises come in the order and no two of them are the same. -/
theorem Rule.admitted_of_injective {order : List Atom} {rule : Rule} {ρ : String → Value}
    (nonempty : rule.premises ≠ []) (premises : ∀ t ∈ rule.premises, t.atom ρ ∈ order)
    (different : (rule.premises.map (Term.atom ρ)).Nodup) : rule.Admitted order ρ := by
  apply Rule.admitted_of_opens nonempty premises
  intro root bound
  apply Rule.opens_of_injective bound
  intro i boundI i' boundI' same
  rw [Rule.premiseAtom_of_getElem? (List.getElem?_eq_getElem boundI),
    Rule.premiseAtom_of_getElem? (List.getElem?_eq_getElem boundI')] at same
  have inMap : i < (rule.premises.map (Term.atom ρ)).length := by simpa using boundI
  have inMap' : i' < (rule.premises.map (Term.atom ρ)).length := by simpa using boundI'
  have sameInMap : (rule.premises.map (Term.atom ρ))[i] =
      (rule.premises.map (Term.atom ρ))[i'] := by
    simpa using same
  exact different.getElem_inj_iff.mp sameInMap

namespace Engine

/-- The atoms that the committed facts say, in the order of their commits. -/
def content (e : Engine Custom) : List Atom :=
  e.facts.order.filterMap e.graph.atom?

variable {e e' : Engine Custom} {a : Atom} {id : EdgeId}

/-! ### Committed atoms -/

theorem mem_content_iff : a ∈ e.content ↔ ∃ id ∈ e.facts.order, e.graph.atom? id = some a :=
  List.mem_filterMap

theorem Coherent.exists_atom (coherent : e.Coherent) (committed : id ∈ e.facts.order) :
    ∃ a, e.graph.atom? id = some a := by
  obtain ⟨edge, found⟩ := (coherent.facts.order id).mp committed
  exact coherent.graph.exists_atom (coherent.committed _ _ found)

/-- No atom is committed twice. -/
theorem Coherent.nodup_content (coherent : e.Coherent) : e.content.Nodup :=
  coherent.facts.nodupOrder.filterMap fun _ _ _ isAtom isAtom' =>
    coherent.graph.atom?_injective isAtom isAtom'

theorem Coherent.length_content (coherent : e.Coherent) :
    e.content.length = e.facts.order.length := by
  apply List.filterMap_length_eq_length.mpr
  intro id committed
  obtain ⟨a, isAtom⟩ := coherent.exists_atom committed
  simp [isAtom]

/-- Atoms stay committed, before those that come later. -/
theorem Continues.content_prefix (continues_ : Continues e e') (coherent : e.Coherent) :
    e.content <+: e'.content := by
  obtain ⟨others, split⟩ := continues_.facts.order
  have same : e.facts.order.filterMap e'.graph.atom? =
      e.facts.order.filterMap e.graph.atom? := by
    apply List.filterMap_congr
    intro id mem
    obtain ⟨a, isAtom⟩ := coherent.exists_atom mem
    rw [isAtom, coherent.graph.atom?_mono continues_.graph isAtom]
  rw [content, content, ← split, List.filterMap_append, same]
  exact List.prefix_append _ _

/-! ### Closure -/

variable {final : Engine Custom} {ops : List (Operation Custom)}

/-- What comes later among the facts says what comes later among the atoms. -/
theorem Coherent.split_order (coherent : e.Coherent) {earlier later : List Atom}
    (split : e.content = earlier ++ a :: later) (isAtom : e.graph.atom? id = some a) :
    ∃ before after, e.facts.order = before ++ id :: after ∧
      ∀ d ∈ after, ∀ b, e.graph.atom? d = some b → b ∈ later := by
  obtain ⟨before, rest, splitOrder, _, atoms⟩ := List.filterMap_eq_append_iff.mp split
  obtain ⟨between, d, after, splitRest, _, isAtom', same⟩ := List.filterMap_eq_cons_iff.mp atoms
  obtain rfl := coherent.graph.atom?_injective isAtom isAtom'
  refine ⟨before ++ between, after, ?_, fun d mem b isAtom => ?_⟩
  · rw [splitOrder, splitRest, List.append_assoc]
  · rw [← same]
    exact List.mem_filterMap.mpr ⟨d, mem, isAtom⟩

/-- Facts that say the premises of an instance. -/
theorem exists_facts {rule : Rule} {ρ : String → Value}
    (premises : ∀ t ∈ rule.premises, t.atom ρ ∈ e.content) :
    ∃ α : Nat → EdgeId, ∀ i t, rule.premises[i]? = some t →
      α i ∈ e.facts.order ∧ e.graph.atom? (α i) = some (t.atom ρ) := by
  have facts : ∀ i : Nat, ∃ id, ∀ t : Term, rule.premises[i]? = some t →
      id ∈ e.facts.order ∧ e.graph.atom? id = some (t.atom ρ) := by
    intro i
    cases isPremise : rule.premises[i]? with
    | none => exact ⟨default, by simp⟩
    | some t =>
      obtain ⟨id, committed, isAtom⟩ :=
        mem_content_iff.mp (premises t (List.mem_of_getElem? isPremise))
      refine ⟨id, fun t' same => ?_⟩
      obtain rfl := Option.some.inj same
      exact ⟨committed, isAtom⟩
  choose α fact using facts
  exact ⟨α, fact⟩

/-- In the end the conclusion of every admitted instance is committed. -/
theorem Accepts.closed (accepts : Accepts e) (empty : e.facts.order = [])
    (unprimed : ∀ c ∈ e.rules, ∀ t ∈ c.rule.premises, t.factVariable = none)
    (chains : ∀ op ∈ ops, op.Chains) (performed : e.performAll ops = final)
    (idle : final.agenda.isEmpty = true) :
    Atom.Closed (Rule.Admitted final.content) (e.rules.map CompiledRule.rule)
      {a | a ∈ final.content} := by
  have coherent := accepts.coherent
  have matching : ∀ op ∈ ops, op.IsMatching := fun op mem => (chains op mem).isMatching
  have coherent' : final.Coherent := performed ▸ coherent.performAll ops
  have continues_ : Continues e final := performed ▸ coherent.continues_performAll matching
  intro rule isRule ρ admitted premises
  obtain ⟨c, mem, rfl⟩ := List.mem_map.mp isRule
  obtain ⟨root, bound, opens, earlier, later, order, last⟩ := admitted
  have typed := (coherent.typed c mem).mono continues_.graph.schema
  obtain ⟨α, fact⟩ := exists_facts premises
  have isAtom : ∀ i < c.rule.premises.length,
      final.graph.atom? (α i) = some (c.rule.premiseAtom ρ i) := by
    intro i bound
    rw [Rule.premiseAtom_of_getElem? (List.getElem?_eq_getElem bound)]
    exact (fact i _ (List.getElem?_eq_getElem bound)).2
  obtain ⟨σ, filled, conclusion⟩ := typed.exists_filled coherent'.graph (unprimed c mem)
    coherent'.committed (fun i t isPremise => (coherent'.facts.order _).mp (fact i t isPremise).1)
    fun i t isPremise => (fact i t isPremise).2
  obtain ⟨path, isPath, rfl⟩ := exists_path typed bound
  obtain ⟨scorer, placed⟩ := coherent.placed c mem path isPath
  obtain ⟨slot, held⟩ := List.mem_iff_getElem?.mp placed
  obtain ⟨before, after, orderFacts, laterFacts⟩ := coherent'.split_order order (isAtom _ bound)
  have lastFact : ∀ i < c.rule.premises.length, α i ∉ after := by
    intro i bound mem
    have isPremise := List.getElem?_eq_getElem bound
    exact last _ (List.mem_of_getElem? isPremise) (laterFacts _ mem _ (fact i _ isPremise).2)
  have opensFacts : c.rule.Opens path.root α := by
    apply opens.of_names bound
    intro i boundI i' boundI' same
    have isAtomI := isAtom i boundI
    rw [same, isAtom i' boundI'] at isAtomI
    exact (Option.some.inj isAtomI).symm
  obtain ⟨done, op, others, rfl, _, f, called, _, _, _, _, p, proposals, concludes⟩ :=
    coherent.exists_call_in_history empty matching performed held filled opensFacts orderFacts
      lastFact
  have known := (accepts.performAll chains).2.2.2 f (mem_history_of_op called) p
    (proposals ▸ List.mem_singleton_self p)
  rw [performed] at known
  rcases known with pending | committed
  · simp [Agenda.pending_of_isEmpty idle] at pending
  · refine mem_content_iff.mpr ⟨_, committed, ?_⟩
    rw [concludes.atom? coherent'.graph, conclusion]

/-! ### Soundness -/

/-- The facts that a call is given open the path of its generator. -/
theorem Coherent.opens_of_called (coherent : e.Coherent) {op : Operation Custom} {edge : Edge}
    (fires : Fires e op id edge) {f : Firing} (called : f ∈ op.firings e) {α : Nat → EdgeId}
    {σ : Valuation} (agrees : ∀ x ∈ f.assignment, α x.2 = x.1)
    (filled : f.generator.rule.Filled (op.perform e).facts (op.perform e).graph α σ) :
    f.generator.rule.rule.Opens f.generator.path.root α := by
  obtain ⟨isFact, moves, walk, at_, bindings⟩ := fires.exists_walk called
  obtain ⟨isRule, isPath, along⟩ := coherent.attached _ _ (List.mem_of_getElem? at_)
  have typed := coherent.typed _ isRule
  have live := fires.live_of_committed coherent
  have filled := filled.rewind typed coherent.graph fires.extends_ (.refl _) live fun i bound => by
    obtain ⟨e, found, _⟩ := filled i _ (List.getElem?_eq_getElem bound)
    exact ⟨e, found⟩
  have isRoot : α f.generator.path.root = id := by
    rw [← isFact]
    exact agrees _ (fires.assignment_spec coherent called).2
  have committed : (op.perform e).facts.edge? (α f.generator.path.root) = some edge :=
    isRoot.symm ▸ fires.committed
  obtain ⟨edge', found, isRelation⟩ := filled.relation typed (typed.order isPath).1
  obtain rfl : edge = edge' := Option.some.inj (committed.symm.trans found)
  have bound : boundFacts moves = f.generator.path.termOrder.map α := by
    obtain ⟨_, run⟩ := walk
    have inHistory : f ∈ e.history [op] := by simpa [history] using called
    rw [← run.follows.boundEdges_eq, ← bindings]
    exact coherent.boundEdges_of_agrees inHistory agrees
  exact filled.opens_of_walk typed coherent.graph live (coherent.perform op).facts isPath
    committed isRelation (fires.facts ▸ walk) along.symm bound

/-- What a call proposes is the conclusion of an admitted instance, whose premises are committed. -/
theorem Coherent.admitted_of_called (coherent : e.Coherent) {op : Operation Custom} {edge : Edge}
    (fires : Fires e op id edge) {f : Firing} (called : f ∈ op.firings e) {p : Proposal}
    (proposed : p ∈ f.proposals) (coherent' : final.Coherent)
    (later : Continues (op.perform e) final) :
    ∃ ρ, f.generator.rule ∈ e.rules ∧ f.generator.rule.rule.Admitted final.content ρ ∧
      (∀ t ∈ f.generator.rule.rule.premises, ∃ d ∈ (op.perform e).facts.order,
        final.graph.atom? d = some (t.atom ρ)) ∧
      final.graph.atom? p.edge = some (f.generator.rule.rule.conclusion.atom ρ) := by
  obtain ⟨isFact, _, _, at_, _⟩ := fires.exists_walk called
  obtain ⟨isRule, isPath, _⟩ := coherent.attached _ _ (List.mem_of_getElem? at_)
  obtain ⟨α, σ, agrees, filled, concludes⟩ := fires.proposal_spec coherent called proposed
  have opens := coherent.opens_of_called fires called agrees filled
  have coherent₁ := coherent.perform op
  have typed := (coherent.typed _ isRule).mono fires.extends_.schema
  have bound := (typed.order isPath).1
  have isAtom : ∀ {i t}, f.generator.rule.rule.premises[i]? = some t →
      (op.perform e).graph.atom? (α i) = some (t.atom ((op.perform e).graph.reading σ)) :=
    fun isPremise => filled.atom? typed coherent₁.graph coherent₁.committed isPremise
  have committed : ∀ {i t}, f.generator.rule.rule.premises[i]? = some t →
      α i ∈ (op.perform e).facts.order := by
    intro i t isPremise
    obtain ⟨d, found, _⟩ := filled i t isPremise
    exact (coherent₁.facts.order _).mpr ⟨d, found⟩
  have concluded := concludes.atom? coherent₁.graph
  generalize (op.perform e).graph.reading σ = ρ at isAtom concluded
  refine ⟨ρ, isRule, ⟨f.generator.path.root, bound, ?_, ?_⟩, fun t mem => ?_,
    coherent₁.graph.atom?_mono later.graph concluded⟩
  · apply opens.of_names bound
    intro i boundI i' boundI' same
    rw [Rule.premiseAtom_of_getElem? (List.getElem?_eq_getElem boundI),
      Rule.premiseAtom_of_getElem? (List.getElem?_eq_getElem boundI')] at same
    have isAtomI := isAtom (List.getElem?_eq_getElem boundI)
    rw [same] at isAtomI
    exact coherent₁.graph.atom?_injective isAtomI (isAtom (List.getElem?_eq_getElem boundI'))
  · -- The fact of the root is the last that is committed when the call is made.
    have isRoot : α f.generator.path.root = f.fact :=
      agrees _ (fires.assignment_spec coherent called).2
    have here : (op.perform e).content = e.facts.order.filterMap (op.perform e).graph.atom? ++
        [f.generator.rule.rule.premiseAtom ρ f.generator.path.root] := by
      rw [content, fires.order, List.filterMap_append, ← isFact,
        ← isRoot, Rule.premiseAtom_of_getElem? (List.getElem?_eq_getElem bound)]
      simp [isAtom (List.getElem?_eq_getElem bound)]
    obtain ⟨others, split⟩ := later.content_prefix coherent₁
    refine ⟨_, others, by rw [← split, here, List.append_assoc, List.singleton_append], ?_⟩
    intro t mem again
    obtain ⟨i, isPremise⟩ := List.mem_iff_getElem?.mp mem
    have nodup := coherent'.nodup_content
    rw [← split] at nodup
    exact (List.nodup_append.mp nodup).2.2 _
      (mem_content_iff.mpr ⟨_, committed isPremise, isAtom isPremise⟩) _ again rfl
  · obtain ⟨i, isPremise⟩ := List.mem_iff_getElem?.mp mem
    exact ⟨α i, committed isPremise, coherent₁.graph.atom?_mono later.graph (isAtom isPremise)⟩

/-- A set that is closed under the admitted instances has everything that becomes committed, if it
has what is known before and what is committed by request. -/
theorem Accepts.sound (accepts : Accepts e) {rules : List Rule} {S : Set Atom}
    (isRule : ∀ c ∈ e.rules, c.rule ∈ rules) (chains : ∀ op ∈ ops, op.Chains)
    (performed : e.performAll ops = final)
    (closed : Atom.Closed (Rule.Admitted final.content) rules S)
    (known : ∀ id, Known e id → ∀ a, final.graph.atom? id = some a → a ∈ S)
    (asked : ∀ id, .commit id true ∈ ops → ∀ a, final.graph.atom? id = some a → a ∈ S) :
    ∀ a ∈ final.content, a ∈ S := by
  induction ops generalizing e with
  | nil =>
    obtain rfl : e = final := performed
    intro a mem
    obtain ⟨id, committed, isAtom⟩ := mem_content_iff.mp mem
    exact known id (.inr committed) a isAtom
  | cons op rest ih =>
    obtain ⟨chainsFirst, chainsRest⟩ := List.forall_mem_cons.mp chains
    have coherent := accepts.coherent
    have advances := accepts.advances chainsFirst
    have performed : (op.perform e).performAll rest = final := performed
    have coherent' : final.Coherent := performed ▸ (coherent.perform op).performAll rest
    have later : Continues (op.perform e) final :=
      performed ▸ advances.accepts.continues_performAll chainsRest
    refine ih advances.accepts (advances.rules ▸ isRule) chainsRest performed ?_ fun id mem =>
      asked id (List.mem_cons_of_mem _ mem)
    intro id knownAfter a isAtom
    rcases advances.new id knownAfter with old | rfl | ⟨f, called, p, proposed, rfl⟩
    · exact known id old a isAtom
    · exact asked id List.mem_cons_self a isAtom
    · obtain ⟨edge, fires⟩ := coherent.fires_of_mem called
      obtain ⟨ρ, isGenerator, admitted, premises, conclusion⟩ :=
        coherent.admitted_of_called fires called proposed coherent' later
      obtain rfl := Option.some.inj (isAtom.symm.trans conclusion)
      apply closed _ (isRule _ isGenerator) ρ admitted
      intro t mem
      obtain ⟨d, committed, isPremise⟩ := premises t mem
      rw [fires.order] at committed
      rcases List.mem_append.mp committed with before | here
      · exact known d (.inr before) _ isPremise
      · obtain rfl := List.mem_singleton.mp here
        rcases fires.asked with rfl | pending
        · exact asked _ List.mem_cons_self _ isPremise
        · exact known _ (.inl pending) _ isPremise

end Engine

end ScoredChaining
