import ScoredChaining.Proofs.Rule.Walks

/-!
Instances of rules.

* `CompiledRule.Filled`: facts for the premises of a rule that agree on every variable and match
  every constant.
* `CompiledRule.Concludes`: the fact that the rule draws from them.
* `RuleGenerator.Fed.exists_filled`, `CompiledRule.Filled.instances`: facts paired with premises
  unify just if they fill them.
-/

namespace ScoredChaining

/-- The facts fill the premises of the rule: each is committed, is of the relation of its premise,
and has at each position of the premise the node that the argument there stands for. -/
def CompiledRule.Filled (facts : FactBase) (g : Graph) (rule : CompiledRule) (α : Nat → EdgeId)
    (σ : Valuation) : Prop :=
  ∀ i t, rule.rule.premises[i]? = some t → ∃ e, facts.edge? (α i) = some e ∧
    g.schema.find? t.relation = some e.relation ∧ t.Instance g σ e

/-- The fact is the conclusion of the rule under the valuation: its relation applied to the images
of the arguments, where constants have the declared types. -/
def CompiledRule.Concludes (g : Graph) (rule : CompiledRule) (σ : Valuation) (id : EdgeId) : Prop :=
  ∃ e R, g.edges.get? id = some e ∧
    g.schema.find? rule.rule.conclusion.relation = some e.relation ∧
    g.schema.relation? e.relation = some R ∧
    Arg.Images g σ rule.rule.conclusion.args R.argTypes e.tail

variable {facts : FactBase} {g g' : Graph} {σ : Valuation}

/-! ### Growing graphs -/

theorem Arg.Denotes.mono {a : Arg} {n : NodeId} (extends_ : g.Extends g')
    (denotes : a.Denotes g σ n) : a.Denotes g' σ n := by
  cases a with
  | var name => exact denotes
  | const c =>
    obtain ⟨type, live⟩ := Graph.valueOf_eq_ok_iff.mp denotes
    exact Graph.valueOf_eq_ok_iff.mpr ⟨type, extends_.nodes _ _ live⟩

theorem Term.Instance.mono {t : Term} {e : Edge} (extends_ : g.Extends g')
    (inst : t.Instance g σ e) : t.Instance g' σ e := by
  intro p a at_
  obtain ⟨n, found, denotes⟩ := inst p a at_
  exact ⟨n, found, denotes.mono extends_⟩

theorem Arg.Images.mono {args : List Arg} {types : List TypeId} {tail : List NodeId}
    (extends_ : g.Extends g') (images : Arg.Images g σ args types tail) :
    Arg.Images g' σ args types tail := by
  induction images with
  | nil => exact .nil
  | var _ ih => exact .var ih
  | const live _ ih => exact .const (extends_.nodes _ _ live) ih

theorem CompiledRule.Filled.mono {rule : CompiledRule} {α : Nat → EdgeId}
    (extends_ : g.Extends g') (filled : rule.Filled facts g α σ) : rule.Filled facts g' α σ := by
  intro i t isPremise
  obtain ⟨e, found, isRelation, inst⟩ := filled i t isPremise
  exact ⟨e, found, extends_.schema.found isRelation, inst.mono extends_⟩

theorem CompiledRule.Concludes.mono {rule : CompiledRule} {id : EdgeId} (extends_ : g.Extends g')
    (concludes : rule.Concludes g σ id) : rule.Concludes g' σ id := by
  obtain ⟨e, R, live, isRelation, isR, images⟩ := concludes
  exact ⟨e, R, extends_.edges _ _ live, extends_.schema.found isRelation,
    extends_.schema.relation isR, images.mono extends_⟩

/-- What the generator of a typed rule concludes is the conclusion of the rule. -/
theorem RuleGenerator.Concludes.concludes {r : RuleGenerator} {p : Proposal}
    (typed : r.rule.Typed g.schema) (drawn : r.Concludes g σ p) : r.rule.Concludes g σ p.edge := by
  obtain ⟨e, R, live, isRelation, isR, images, _⟩ := drawn
  obtain ⟨_, found, _⟩ := typed.conclusion
  exact ⟨e, R, live, isRelation ▸ found, isR, images⟩

/-! ### Facts paired with premises -/

/-- Pairs with different second parts are those of a function. -/
theorem exists_function {pairs : List (EdgeId × Nat)} (nodup : (pairs.map Prod.snd).Nodup) :
    ∃ α : Nat → EdgeId, ∀ x ∈ pairs, α x.2 = x.1 := by
  induction pairs with
  | nil => exact ⟨fun _ => default, by simp⟩
  | cons x rest ih =>
    obtain ⟨fresh, nodupRest⟩ := List.nodup_cons.mp nodup
    obtain ⟨α, agrees⟩ := ih nodupRest
    refine ⟨fun i => if i = x.2 then x.1 else α i, List.forall_mem_cons.mpr
      ⟨if_pos rfl, fun y mem => ?_⟩⟩
    have other : y.2 ≠ x.2 := fun same => fresh (same ▸ List.mem_map_of_mem mem)
    simpa [other] using agrees y mem

namespace RuleGenerator

variable {r : RuleGenerator} {bindings : List Binding}

theorem Fed.map_snd_assignment (fed : Fed g r bindings) :
    (r.assignment bindings).map Prod.snd = r.path.termOrder := by
  rw [assignment, List.map_snd_zip]
  exact Nat.le_of_eq fed.length.symm

/-- Committed facts that unify with the premises fill them. -/
theorem Fed.exists_filled (fed : Fed g r bindings)
    (committed : ∀ x ∈ r.assignment bindings, ∀ e, g.edges.get? x.1 = some e →
      facts.edge? x.1 = some e)
    (instances : Instances g σ r.rule.rule.premises (r.assignment bindings)) :
    ∃ α, (∀ x ∈ r.assignment bindings, α x.2 = x.1) ∧ r.rule.Filled facts g α σ := by
  have nodup : ((r.assignment bindings).map Prod.snd).Nodup := by
    rw [fed.map_snd_assignment]
    exact fed.order.nodup_iff.mpr List.nodup_range
  obtain ⟨α, agrees⟩ := exists_function nodup
  refine ⟨α, agrees, ?_⟩
  intro i t isPremise
  obtain ⟨bound, _⟩ := List.getElem?_eq_some_iff.mp isPremise
  obtain ⟨id, paired⟩ := fed.exists_pair bound
  obtain rfl : α i = id := agrees _ paired
  obtain ⟨e, t', live, isPremise', inst⟩ := instances _ paired
  obtain ⟨e', live', isRelation⟩ := fed.related _ paired
  obtain rfl : t = t' := Option.some.inj (isPremise.symm.trans isPremise')
  obtain rfl : e = e' := Option.some.inj (live.symm.trans live')
  obtain ⟨relation, isRelation', typed⟩ := fed.typed.premise isPremise
  obtain rfl : relation = e.relation := Option.some.inj (isRelation'.symm.trans isRelation)
  obtain ⟨_, found, _⟩ := typed
  exact ⟨e, committed _ paired e live, found, inst⟩

end RuleGenerator

/-- Facts that fill the premises are of their relations. -/
theorem CompiledRule.Filled.relation {rule : CompiledRule} {α : Nat → EdgeId}
    (filled : rule.Filled facts g α σ) (typed : rule.Typed g.schema) {i : Nat}
    (bound : i < rule.rule.premises.length) :
    ∃ e, facts.edge? (α i) = some e ∧ rule.premiseRelations[i]? = some e.relation := by
  obtain ⟨e, found, isRelation, _⟩ := filled i _ (List.getElem?_eq_getElem bound)
  obtain ⟨relation, isRelation', _, declared, _⟩ := typed.premise (List.getElem?_eq_getElem bound)
  obtain rfl := Option.some.inj (declared.symm.trans isRelation)
  exact ⟨e, found, isRelation'⟩

/-- Facts that fill the premises unify with them. -/
theorem CompiledRule.Filled.instances {rule : CompiledRule} {α : Nat → EdgeId}
    (filled : rule.Filled facts g α σ)
    (live : ∀ id e, facts.edge? id = some e → g.edges.get? id = some e)
    {pairs : List (EdgeId × Nat)} (bound : ∀ x ∈ pairs, x.2 < rule.rule.premises.length)
    (agrees : ∀ x ∈ pairs, α x.2 = x.1) :
    RuleGenerator.Instances g σ rule.rule.premises pairs := by
  intro x mem
  obtain ⟨e, found, _, inst⟩ := filled x.2 _ (List.getElem?_eq_getElem (bound x mem))
  rw [agrees x mem] at found
  exact ⟨e, _, live _ _ found, List.getElem?_eq_getElem (bound x mem), inst⟩

/-- Facts that fill the premises do so as soon as all of them are committed. -/
theorem CompiledRule.Filled.rewind {rule : CompiledRule} {α : Nat → EdgeId} {facts' : FactBase}
    (filled : rule.Filled facts' g' α σ) (typed : rule.Typed g.schema) (wf : g.WellFormed)
    (extends_ : g.Extends g') (earlier : facts.Extends facts')
    (live : ∀ id e, facts.edge? id = some e → g.edges.get? id = some e)
    (committed : ∀ i < rule.rule.premises.length, ∃ e, facts.edge? (α i) = some e) :
    rule.Filled facts g α σ := by
  intro i t isPremise
  obtain ⟨e, found', isRelation, inst⟩ := filled i t isPremise
  obtain ⟨e', found⟩ := committed i (List.getElem?_eq_some_iff.mp isPremise).1
  obtain rfl : e = e' := Option.some.inj (found'.symm.trans (earlier.edges _ _ found))
  obtain ⟨relation, _, _, declared, _⟩ := typed.premise isPremise
  have same := (extends_.schema.found declared).symm.trans isRelation
  refine ⟨e, found, declared.trans same, ?_⟩
  intro p a at_
  obtain ⟨n, onFact, denotes⟩ := inst p a at_
  refine ⟨n, onFact, ?_⟩
  cases a with
  | var name => exact denotes
  | const c =>
    obtain ⟨_, type, v, _, _, liveNode⟩ := RuleGenerator.live_of_nodeAt? wf (live _ _ found) onFact
    obtain ⟨type', liveNode'⟩ := Graph.valueOf_eq_ok_iff.mp denotes
    have content := Option.some.inj ((extends_.nodes _ _ liveNode).symm.trans liveNode')
    obtain rfl : v = c := congrArg Node.value content
    exact Graph.valueOf_eq_ok_iff.mpr ⟨type, liveNode⟩

end ScoredChaining
