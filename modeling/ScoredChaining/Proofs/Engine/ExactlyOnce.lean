import ScoredChaining.Proofs.Engine.Soundness
import ScoredChaining.Proofs.Rule.Replay

/-!
A rule fires once for every way to fill its premises with different facts.

* `Engine.Registers`: a call is one of a rule that was added between two engines.
* `Engine.Reachable.fires_once`: of all the calls of a history that are of a rule and given the facts
  of an instance, there is exactly one. It is made when the last of the facts is committed, from the
  premise that this fact fills.
-/

namespace ScoredChaining.Engine

variable {Custom : Type} [Decider Custom]

variable {e e' : Engine Custom} {rule : Rule} {scorer : Scorer} {compiled : CompiledRule}

/-- The generator of the call was attached between the first engine and the second: its slot was
free, and then held it. -/
def Registers (e e' : Engine Custom) (f : Firing) : Prop :=
  (e.trie.generatorsAt f.generator.path.keys).length ≤ f.slot ∧
    (e'.trie.generatorsAt f.generator.path.keys)[f.slot]? = some f.generator

/-! ### Registration -/

/-- What adding a rule changes. -/
theorem snd_addRule (added : (e.addRule rule scorer).1 = .ok compiled) :
    compiled.rule = rule ∧ ∃ schema, (e.addRule rule scorer).2 = { e with
      graph := { e.graph with schema }
      trie := attach compiled scorer e.trie
      rules := e.rules ++ [compiled] } := by
  have typed := @Rule.compile_typed rule e.graph.schema
  unfold addRule at added ⊢
  generalize rule.compile e.graph.schema = answer at added typed ⊢
  obtain ⟨result, schema⟩ := answer
  cases result with
  | error failure => cases added
  | ok other =>
    obtain rfl := Except.ok.inj added
    exact ⟨(typed rfl).1, schema, rfl⟩

/-- Adding a rule attaches one generator for each of its paths, and no others. -/
theorem Coherent.registers_iff (coherent : e.Coherent)
    (added : (e.addRule rule scorer).1 = .ok compiled) {f : Firing} :
    Registers e (e.addRule rule scorer).2 f ↔ ∃ k, f.slot =
        (e.trie.generatorsAt f.generator.path.keys).length + k ∧
      ((compiled.paths.filter (·.keys = f.generator.path.keys)).map fun path =>
        (⟨compiled, path, scorer⟩ : RuleGenerator))[k]? = some f.generator := by
  obtain ⟨_, schema, same⟩ := snd_addRule added
  rw [Registers, same]
  simp only [generatorsAt_attach coherent.trie]
  constructor
  · rintro ⟨free, held⟩
    rw [List.getElem?_append_right free] at held
    exact ⟨_, (Nat.add_sub_cancel' free).symm, held⟩
  · rintro ⟨k, isSlot, held⟩
    refine ⟨by omega, ?_⟩
    rw [isSlot, List.getElem?_append_right (Nat.le_add_right _ _), Nat.add_sub_cancel_left]
    exact held

/-- A generator that was attached is one of the rule that was added. -/
theorem Coherent.generator_of_registers (coherent : e.Coherent)
    (added : (e.addRule rule scorer).1 = .ok compiled) {f : Firing}
    (registers : Registers e (e.addRule rule scorer).2 f) :
    ∃ path ∈ compiled.paths, f.generator = ⟨compiled, path, scorer⟩ := by
  obtain ⟨k, _, held⟩ := (coherent.registers_iff added).mp registers
  obtain ⟨path, isPath, same⟩ := List.mem_map.mp (List.mem_of_getElem? held)
  exact ⟨path, (List.mem_filter.mp isPath).1, same.symm⟩

/-- A typed rule has a path from every premise. -/
theorem exists_path {s : Schema} (typed : compiled.Typed s) {root : Nat}
    (bound : root < compiled.rule.premises.length) : ∃ path ∈ compiled.paths, path.root = root := by
  apply List.mem_map.mp
  rw [typed.roots]
  exact List.mem_range.mpr bound

/-- No two paths of a typed rule have the same root. -/
theorem path_eq_of_root {s : Schema} (typed : compiled.Typed s) {path other : CompiledPath}
    (isPath : path ∈ compiled.paths) (isOther : other ∈ compiled.paths)
    (same : path.root = other.root) : path = other := by
  have nodup : (compiled.paths.map CompiledPath.root).Nodup := by
    rw [typed.roots]
    exact List.nodup_range
  exact List.inj_on_of_nodup_map nodup isPath isOther same

/-- Every path of the rule has its slot. -/
theorem Coherent.exists_slot (coherent : e.Coherent)
    (added : (e.addRule rule scorer).1 = .ok compiled) {path : CompiledPath}
    (isPath : path ∈ compiled.paths) : ∃ slot,
      (e.trie.generatorsAt path.keys).length ≤ slot ∧
      ((e.addRule rule scorer).2.trie.generatorsAt path.keys)[slot]? =
        some ⟨compiled, path, scorer⟩ := by
  obtain ⟨_, schema, same⟩ := snd_addRule added
  have mem : (⟨compiled, path, scorer⟩ : RuleGenerator) ∈
      (compiled.paths.filter (·.keys = path.keys)).map fun path => ⟨compiled, path, scorer⟩ :=
    List.mem_map_of_mem (List.mem_filter.mpr ⟨isPath, decide_eq_true rfl⟩)
  obtain ⟨k, held⟩ := List.mem_iff_getElem?.mp mem
  refine ⟨(e.trie.generatorsAt path.keys).length + k, Nat.le_add_right _ _, ?_⟩
  rw [same]
  simp only [generatorsAt_attach coherent.trie]
  rwa [List.getElem?_append_right (Nat.le_add_right _ _), Nat.add_sub_cancel_left]

/-- No path of the rule has two slots. -/
theorem Coherent.slot_unique (coherent : e.Coherent)
    (added : (e.addRule rule scorer).1 = .ok compiled) {s : Schema} (typed : compiled.Typed s)
    {f f' : Firing} (registers : Registers e (e.addRule rule scorer).2 f)
    (registers' : Registers e (e.addRule rule scorer).2 f') (same : f.generator = f'.generator) :
    f.slot = f'.slot := by
  obtain ⟨k, isSlot, held⟩ := (coherent.registers_iff added).mp registers
  obtain ⟨k', isSlot', held'⟩ := (coherent.registers_iff added).mp registers'
  rw [← same] at isSlot' held'
  have nodup : ((compiled.paths.filter (·.keys = f.generator.path.keys)).map fun path =>
      (⟨compiled, path, scorer⟩ : RuleGenerator)).Nodup := by
    have roots : (compiled.paths.map CompiledPath.root).Nodup := by
      rw [typed.roots]
      exact List.nodup_range
    apply ((List.Nodup.of_map _ roots).filter _).map
    intro path other same
    exact congrArg RuleGenerator.path same
  obtain ⟨bound, isK⟩ := List.getElem?_eq_some_iff.mp held
  obtain ⟨bound', isK'⟩ := List.getElem?_eq_some_iff.mp held'
  obtain rfl := (List.Nodup.getElem_inj_iff nodup).mp (isK.trans isK'.symm)
  rw [isSlot, isSlot']

/-! ### Calls for an instance -/

variable {op : Operation Custom} {edge : Edge} {path : CompiledPath} {α : Nat → EdgeId}
  {σ : Valuation}

/-- When the fact for the root of a path is committed last, the generator there is called with all
the facts, if they open the path, and draws the conclusion. -/
theorem Coherent.exists_call (coherent : e.Coherent) (fires : Fires e op (α path.root) edge)
    {slot : Nat} (held : (e.trie.generatorsAt path.keys)[slot]? = some ⟨compiled, path, scorer⟩)
    (filled : compiled.Filled (op.perform e).facts e.graph α σ)
    (opens : compiled.rule.Opens path.root α) :
    ∃ f ∈ op.firings e, f.fact = α path.root ∧ f.generator = ⟨compiled, path, scorer⟩ ∧
      f.slot = slot ∧ f.assignment = path.termOrder.map (fun i => (α i, i)) ∧
      ∃ p, f.proposals = [p] ∧ f.generator.Concludes f.answer.2 σ p := by
  obtain ⟨isRule, isPath, _⟩ := coherent.attached _ _ (List.mem_of_getElem? held)
  simp only at isRule isPath
  have typed := coherent.typed _ isRule
  have live := fires.live_of_committed coherent
  obtain ⟨bound, order⟩ := typed.order isPath
  obtain ⟨edge', found, isRelation⟩ := filled.relation typed bound
  obtain rfl : edge = edge' := Option.some.inj (fires.committed.symm.trans found)
  obtain ⟨moves, legal, along, met⟩ := filled.exists_walk typed coherent.graph live
    (coherent.perform op).facts isPath fires.committed isRelation opens
  obtain ⟨f, called, same⟩ := List.mem_map.mp (fires.mem_calls_iff.mpr
    ⟨rfl, moves, fires.facts ▸ legal, along.symm ▸ held, rfl⟩)
  obtain ⟨isFact, isGenerator, isSlot, bindings⟩ : f.fact = α path.root ∧
      f.generator = ⟨compiled, path, scorer⟩ ∧ f.slot = slot ∧ f.bindings = bindingsOf moves := by
    simpa [call] using same
  have assigned : f.assignment = path.termOrder.map fun i => (α i, i) := by
    obtain ⟨_, run⟩ := legal
    rw [Firing.assignment, RuleGenerator.assignment, isGenerator, bindings,
      run.follows.boundEdges_eq, met]
    simpa using List.zip_map' (f := α) (g := id) (l := path.termOrder)
  have pairs : ∀ x ∈ f.assignment, α x.2 = x.1 ∧ x.2 < compiled.rule.premises.length := by
    intro x mem
    rw [assigned] at mem
    obtain ⟨i, inOrder, rfl⟩ := List.mem_map.mp mem
    exact ⟨rfl, List.mem_range.mp (order.mem_iff.mp inOrder)⟩
  obtain ⟨wf, fed, before, after⟩ := fires.called f called
  obtain ⟨grows, proposals, ok, _, complete⟩ := f.generator.generate_spec wf fed
  have rule : f.generator.rule = compiled := by rw [isGenerator]
  have instances := (filled.mono before).instances
    (fun d x found => before.edges _ _ (live d x found)) (fun x mem => (pairs x mem).2)
    fun x mem => (pairs x mem).1
  rw [← rule] at instances
  obtain ⟨p, same, drawn⟩ := complete σ instances
  refine ⟨f, called, isFact, isGenerator, isSlot, assigned, p, ?_, drawn⟩
  simp only [Firing.proposals, Firing.answer, ok, same]

/-! ### Histories -/

variable {registered final : Engine Custom} {ops : List (Operation Custom)} {root : Nat}
  {earlier later : List EdgeId}

/-- The facts that a call is given are those of an assignment that agrees with it, in the order of
its path. -/
theorem Coherent.boundEdges_of_agrees (coherent : registered.Coherent) {f : Firing}
    (called : f ∈ registered.history ops) (agrees : ∀ x ∈ f.assignment, α x.2 = x.1) :
    RuleGenerator.boundEdges f.bindings = f.generator.path.termOrder.map α := by
  obtain ⟨done, op, _, _, calledHere⟩ := exists_op_of_mem_history called
  obtain ⟨edge, fires⟩ := (coherent.performAll done).fires_of_mem calledHere
  obtain ⟨_, fed, _, _⟩ := fires.called f calledHere
  have pairs : f.assignment.map Prod.fst = f.assignment.map (α ∘ Prod.snd) :=
    List.map_congr_left fun x mem => (agrees x mem).symm
  rw [← List.map_map, Firing.assignment, fed.map_snd_assignment, RuleGenerator.assignment,
    List.map_fst_zip (Nat.le_of_eq fed.length)] at pairs
  exact pairs

/-- A list without repetitions is split in one way at each of its elements. -/
theorem split_unique {α : Type} {a : α} {xs xs' ys ys' : List α} (nodup : (xs ++ a :: ys).Nodup)
    (same : xs' ++ a :: ys' = xs ++ a :: ys) : xs' = xs ∧ ys' = ys := by
  have absent := (List.nodup_cons.mp (List.nodup_middle.mp nodup)).1
  obtain ⟨rfl, _, rfl⟩ := (List.append_cons_inj_of_notMem
    (fun mem => absent (List.mem_append_left _ mem))
    (fun mem => absent (List.mem_append_right _ mem))).mp same.symm
  exact ⟨rfl, rfl⟩

/-- A call that is given the facts of an assignment is made when the last of them is committed, and
from the premise that this fact fills. -/
theorem Coherent.fact_of_agrees (coherent : registered.Coherent)
    (matching : ∀ op ∈ ops, op.IsMatching) (performed : registered.performAll ops = final)
    {f : Firing} (called : f ∈ registered.history ops) (isRule : f.generator.rule = compiled)
    (agrees : ∀ x ∈ f.assignment, α x.2 = x.1)
    (injective : ∀ i < compiled.rule.premises.length, ∀ i' < compiled.rule.premises.length,
      α i = α i' → i = i')
    (bound : root < compiled.rule.premises.length)
    (order : final.facts.order = earlier ++ α root :: later)
    (last : ∀ i < compiled.rule.premises.length, α i ∉ later) :
    f.fact = α root ∧ f.generator.path.root = root := by
  obtain ⟨done, op, rest, rfl, calledHere⟩ := exists_op_of_mem_history called
  have coherentD := coherent.performAll done
  obtain ⟨edge, fires⟩ := coherentD.fires_of_mem calledHere
  obtain ⟨committed, first⟩ := fires.assignment_spec coherentD calledHere
  obtain ⟨_, fed, _, _⟩ := fires.called f calledHere
  have isFact : α f.generator.path.root = f.fact := agrees _ first
  have boundF : f.generator.path.root < compiled.rule.premises.length := by
    rw [← isRule]
    refine List.mem_range.mp (fed.order.mem_iff.mp ?_)
    exact (List.of_mem_zip first).2
  obtain ⟨id, paired⟩ := fed.exists_pair (isRule ▸ bound)
  obtain ⟨_, found⟩ := committed _ paired
  obtain rfl : α root = id := agrees _ paired
  have mem := ((coherentD.perform op).facts.order _).mpr ⟨_, found⟩
  rw [fires.order] at mem
  rcases List.mem_append.mp mem with old | new
  · -- The fact of the call would have been committed after the last one.
    have during := coherent.continues_after matching
    rw [performed] at during
    obtain ⟨others, split⟩ := during.facts.order
    obtain ⟨a, b, here⟩ := List.append_of_mem old
    have nodup : final.facts.order.Nodup := by
      rw [← performed]
      exact (coherent.performAll _).facts.nodupOrder
    rw [fires.order, here] at split
    have whole : a ++ α root :: (b ++ f.fact :: others) = earlier ++ α root :: later := by
      rw [← order, ← split]
      simp
    obtain ⟨_, rfl⟩ := split_unique (order ▸ nodup) whole
    refine absurd ?_ (last _ boundF)
    rw [isFact]
    exact List.mem_append_right _ List.mem_cons_self
  · have same : α root = f.fact := List.mem_singleton.mp new
    exact ⟨same.symm, injective _ boundF _ bound (isFact.trans same.symm)⟩

/-- When the last fact of an instance is committed, the generator at its premise is called with the
facts of the instance, if they open its path, and draws the conclusion. -/
theorem Coherent.exists_call_in_history (coherent : registered.Coherent)
    (none : registered.facts.order = []) (matching : ∀ op ∈ ops, op.IsMatching)
    (performed : registered.performAll ops = final) {slot : Nat}
    (held : (registered.trie.generatorsAt path.keys)[slot]? = some ⟨compiled, path, scorer⟩)
    (filled : compiled.Filled final.facts final.graph α σ)
    (opens : compiled.rule.Opens path.root α)
    (order : final.facts.order = earlier ++ α path.root :: later)
    (last : ∀ i < compiled.rule.premises.length, α i ∉ later) :
    ∃ done op rest, ops = done ++ op :: rest ∧
      (registered.performAll (done ++ [op])).facts.order = earlier ++ [α path.root] ∧
      ∃ f ∈ op.firings (registered.performAll done), f.fact = α path.root ∧
        f.generator = ⟨compiled, path, scorer⟩ ∧ f.slot = slot ∧
        f.assignment = path.termOrder.map (fun i => (α i, i)) ∧
        ∃ p, f.proposals = [p] ∧ compiled.Concludes final.graph σ p.edge := by
  have committed : α path.root ∈ (registered.performAll ops).facts.order := by
    rw [performed, order]
    exact List.mem_append_right _ List.mem_cons_self
  obtain ⟨done, op, rest, edge, rfl, fires⟩ :=
    coherent.exists_fires matching (by simp [none]) committed
  have coherentD := coherent.performAll done
  have before : Continues registered (registered.performAll done) :=
    coherent.continues_performAll fun op' mem => matching op' (List.mem_append_left _ mem)
  have during := coherent.continues_after matching
  rw [performed] at during
  have whole : Continues (registered.performAll done) final :=
    (coherentD.continues_perform (matching op (by simp)).keeps).trans during
  have orderOp := fires.order
  have indexed : final.facts.Indexed := by
    rw [← performed]
    exact (coherent.performAll _).facts
  have same : (registered.performAll done).facts.order = earlier := by
    obtain ⟨others, split⟩ := during.facts.order
    have nodup := indexed.nodupOrder
    rw [orderOp, List.append_assoc, List.singleton_append] at split
    rw [order] at nodup
    exact (split_unique nodup (split.trans order)).1
  rw [same] at orderOp
  -- All facts of the instance are committed by now.
  have here : ∀ i < compiled.rule.premises.length,
      ∃ e, (op.perform (registered.performAll done)).facts.edge? (α i) = some e := by
    intro i bound
    obtain ⟨e, found, _⟩ := filled i _ (List.getElem?_eq_getElem bound)
    have mem := (indexed.order _).mpr ⟨e, found⟩
    rw [order] at mem
    refine ((coherentD.perform op).facts.order _).mp ?_
    rw [orderOp]
    have := last i bound
    simp_all
  have live := fires.live_of_committed coherentD
  have held' := before.generator held
  obtain ⟨isRule, _⟩ := coherentD.attached _ _ (List.mem_of_getElem? held')
  have filled' := filled.rewind (coherentD.typed _ isRule) coherentD.graph whole.graph during.facts
    live here
  obtain ⟨f, called, isFact, isGenerator, isSlot, assigned, p, proposals, drawn⟩ :=
    coherentD.exists_call fires held' filled' opens
  obtain ⟨wf, fed, _, after⟩ := fires.called f called
  have typed := fed.typed.mono (f.generator.generate_spec wf fed).1.extends_.schema
  refine ⟨done, op, rest, rfl, by simpa using orderOp, f, called, isFact, isGenerator, isSlot,
    assigned, p, proposals, ?_⟩
  have concludes := (drawn.concludes typed).mono (after.trans during.graph)
  rwa [isGenerator] at concludes

/-- Let a rule be added before any fact is committed, and let operations follow that forget nothing
and match all that they commit. For different facts that fill the premises of the rule in the end,
the last of them that was committed being that for the premise `root`, exactly one call of the rule
is given these facts. It is made when that fact is committed, from the premise `root`, and proposes
the conclusion. -/
theorem Reachable.fires_once (reachable : Reachable e) (first : e.facts.order = [])
    (added : e.addRule rule scorer = (.ok compiled, registered))
    (matching : ∀ op ∈ ops, op.IsMatching) (performed : registered.performAll ops = final)
    (filled : compiled.Filled final.facts final.graph α σ)
    (injective : ∀ i < compiled.rule.premises.length, ∀ i' < compiled.rule.premises.length,
      α i = α i' → i = i')
    (bound : root < compiled.rule.premises.length)
    (order : final.facts.order = earlier ++ α root :: later)
    (last : ∀ i < compiled.rule.premises.length, α i ∉ later) :
    ∃ before f after, registered.history ops = before ++ f :: after ∧
      (Registers e registered f ∧ ∀ x ∈ f.assignment, α x.2 = x.1) ∧
      f.fact = α root ∧ f.generator.path.root = root ∧
      (∃ done op rest, ops = done ++ op :: rest ∧ f ∈ op.firings (registered.performAll done) ∧
        (registered.performAll (done ++ [op])).facts.order = earlier ++ [α root]) ∧
      (∃ p, f.proposals = [p] ∧ compiled.Concludes final.graph σ p.edge) ∧
      ∀ f' ∈ before ++ after, ¬(Registers e registered f' ∧ ∀ x ∈ f'.assignment, α x.2 = x.1) := by
  have coherent := reachable.coherent
  have compiles : (e.addRule rule scorer).1 = .ok compiled := by rw [added]
  obtain rfl : (e.addRule rule scorer).2 = registered := by rw [added]
  have coherent₁ := coherent.addRule rule scorer
  obtain ⟨_, schema, changed⟩ := snd_addRule compiles
  have none : (e.addRule rule scorer).2.facts.order = [] := by rw [changed]; exact first
  have typed := coherent₁.typed compiled (by simp [changed])
  obtain ⟨path, isPath, rfl⟩ := exists_path typed bound
  obtain ⟨slot, free, held⟩ := coherent.exists_slot compiles isPath
  obtain ⟨done, op, rest, rfl, orderOp, f, called, isFact, isGenerator, isSlot, assigned, p,
    proposals, concludes⟩ := coherent₁.exists_call_in_history none matching performed held filled
      (Rule.opens_of_injective bound injective) order last
  have agrees : ∀ x ∈ f.assignment, α x.2 = x.1 := by
    intro x mem
    rw [assigned] at mem
    obtain ⟨i, _, rfl⟩ := List.mem_map.mp mem
    rfl
  have registers : Registers e (e.addRule rule scorer).2 f := by
    rw [Registers, isGenerator, isSlot]
    exact ⟨free, held⟩
  have inHistory : f ∈ (e.addRule rule scorer).2.history (done ++ op :: rest) :=
    mem_history_of_op called
  obtain ⟨before, after, split⟩ := List.append_of_mem inHistory
  refine ⟨before, f, after, split, ⟨registers, agrees⟩, isFact, by rw [isGenerator],
    ⟨done, op, rest, rfl, called, orderOp⟩, ⟨p, proposals, concludes⟩, ?_⟩
  rintro f' mem' ⟨registers', agrees'⟩
  have inHistory' : f' ∈ (e.addRule rule scorer).2.history (done ++ op :: rest) := by
    rw [split]
    simp only [List.mem_append, List.mem_cons] at mem' ⊢
    exact mem'.imp_right .inr
  obtain ⟨path', isPath', isGenerator'⟩ := coherent.generator_of_registers compiles registers'
  obtain ⟨isFact', isRoot'⟩ := coherent₁.fact_of_agrees matching performed inHistory'
    (by rw [isGenerator']) agrees' injective bound order last
  rw [isGenerator'] at isRoot'
  obtain rfl := path_eq_of_root typed isPath' isPath isRoot'
  have sameGenerator : f.generator = f'.generator := isGenerator.trans isGenerator'.symm
  have sameSlot := coherent.slot_unique compiles typed registers registers' sameGenerator
  have sameFacts : RuleGenerator.boundEdges f.bindings = RuleGenerator.boundEdges f'.bindings := by
    rw [coherent₁.boundEdges_of_agrees inHistory agrees,
      coherent₁.boundEdges_of_agrees inHistory' agrees', sameGenerator]
  have sameKey : (f'.fact, place f') = (f.fact, place f) := by
    simp only [place, isFact, isFact', sameGenerator, sameSlot, sameFacts]
  have nodup := (coherent₁.nodup_history matching).1
  rw [split, List.map_append, List.map_cons] at nodup
  refine (List.nodup_cons.mp (List.nodup_middle.mp nodup)).1 ?_
  rw [← sameKey, ← List.map_append]
  exact List.mem_map_of_mem mem'

/-- The rule about links, compiled. -/
def chainCompiled : CompiledRule :=
  (linkable.addRule chainRule (.constant 1.0)).1.toOption.getD default

/-- An engine with that rule. -/
def chaining : Engine :=
  (linkable.addRule chainRule (.constant 1.0)).2

/-- Both links are committed. -/
def bothLinks : List Operation :=
  links ++ [.commit ⟨.temporary, 1⟩ true]

/-- The facts and the nodes of the path from 1 over 2 to 3. -/
def chainFact (i : Nat) : EdgeId :=
  ⟨.temporary, i⟩

def chainNode (name : String) : NodeId :=
  ⟨.temporary, if name = "x" then 0 else if name = "y" then 1 else 3⟩

theorem chain_filled : chainCompiled.Filled (chaining.performAll bothLinks).facts
    (chaining.performAll bothLinks).graph chainFact chainNode := by
  have premises : chainCompiled.rule.premises = chainRule.premises := by decide +kernel
  intro i t isPremise
  rw [premises] at isPremise
  match i with
  | 0 =>
    obtain rfl := Option.some.inj isPremise
    refine ⟨⟨⟨0⟩, ⟨.temporary, 2⟩, [⟨.temporary, 0⟩, ⟨.temporary, 1⟩]⟩, by decide +kernel,
      by decide +kernel, Term.instance_iff.mpr ?_⟩
    exact List.forall_mem_cons.mpr ⟨⟨_, rfl, rfl⟩,
      List.forall_mem_cons.mpr ⟨⟨_, rfl, by simp [Arg.Denotes, chainNode]⟩,
        List.forall_mem_nil _⟩⟩
  | 1 =>
    obtain rfl := Option.some.inj isPremise
    refine ⟨⟨⟨0⟩, ⟨.temporary, 4⟩, [⟨.temporary, 1⟩, ⟨.temporary, 3⟩]⟩, by decide +kernel,
      by decide +kernel, Term.instance_iff.mpr ?_⟩
    exact List.forall_mem_cons.mpr ⟨⟨_, rfl, by simp [Arg.Denotes, chainNode]⟩,
      List.forall_mem_cons.mpr ⟨⟨_, rfl, by simp [Arg.Denotes, chainNode]⟩,
        List.forall_mem_nil _⟩⟩
  | i + 2 => cases isPremise

/-- The path from 1 over 2 to 3 is found once, when the second link is committed. -/
theorem fires_once_chained : Reachable linkable ∧ linkable.facts.order = [] ∧
    linkable.addRule chainRule (.constant 1.0) = (.ok chainCompiled, chaining) ∧
    (∀ op ∈ bothLinks, op.IsMatching) ∧
    chainCompiled.Filled (chaining.performAll bothLinks).facts (chaining.performAll bothLinks).graph
      chainFact chainNode ∧
    ∃ before f after, chaining.history bothLinks = before ++ f :: after ∧
      (Registers linkable chaining f ∧ ∀ x ∈ f.assignment, chainFact x.2 = x.1) ∧
      f.fact = ⟨.temporary, 1⟩ ∧ f.generator.path.root = 1 ∧ f.proposals ≠ [] ∧
      ∀ f' ∈ before ++ after,
        ¬(Registers linkable chaining f' ∧ ∀ x ∈ f'.assignment, chainFact x.2 = x.1) := by
  have first : linkable.facts.order = [] := by decide +kernel
  have added : linkable.addRule chainRule (.constant 1.0) = (.ok chainCompiled, chaining) :=
    Prod.ext (by decide +kernel) rfl
  have matching : ∀ op ∈ bothLinks, op.IsMatching := by decide +kernel
  have premises : chainCompiled.rule.premises.length = 2 := by decide +kernel
  have order : (chaining.performAll bothLinks).facts.order =
      [⟨.temporary, 0⟩] ++ chainFact 1 :: [] := by decide +kernel
  obtain ⟨before, f, after, split, called, isFact, isRoot, _, ⟨p, proposals, _⟩, once⟩ :=
    Reachable.fires_once reachable_linkable first added matching rfl chain_filled
      (fun _ _ _ _ same => (EdgeId.mk.inj same).2) (premises ▸ Nat.one_lt_two) order
      fun _ _ => List.not_mem_nil
  exact ⟨reachable_linkable, first, added, matching, chain_filled, before, f, after, split, called,
    isFact, isRoot, by simp [proposals], once⟩

end ScoredChaining.Engine
