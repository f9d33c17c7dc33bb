import ScoredChaining.Proofs.Engine.Coherence

/-!
The calls of generators while a committed fact takes effect.

`Engine.commitFirings` lists them, with the graph in which each call is made. It is run beside the
engine, whose own functions say where the next call stands.

* `Engine.Effects`: what effects guarantee. They do not fail, they leave the engine coherent, and
  nothing becomes pending that no call proposed.
* `Engine.Coherent.commit_eq`: a commit enters its fact and then runs the patterns that it completes.
* `Engine.Coherent.commit_effects`: committing a live fact has these effects. The engine counts as
  many calls as are listed, and they are those of the generators at the ends of the legal walks from
  the witness of the fact, walk by walk.
-/

namespace ScoredChaining

variable {Custom : Type} [Decider Custom]

/-- A call of a generator. -/
structure Firing where
  /-- The fact that was committed. -/
  fact : EdgeId
  generator : RuleGenerator
  /-- The place of the generator among those at the end of its path. -/
  slot : Nat
  bindings : List Binding
  /-- The graph in which the call is made. -/
  graph : Graph

namespace Firing

/-- What the call answers, and the graph after it. -/
def answer (f : Firing) : Except RuleError (List Proposal) × Graph :=
  f.generator.generate f.bindings f.graph

/-- The candidates that the call proposes. -/
def proposals (f : Firing) : List Proposal :=
  match f.answer.1 with
  | .ok proposals => proposals
  | .error _ => []

/-- The facts that the call is given, each paired with the premise that it is to fill. -/
def assignment (f : Firing) : List (EdgeId × Nat) :=
  f.generator.assignment f.bindings

/-- What a call proposes is the conclusion of its rule under a valuation that meets the premises. -/
theorem concludes {f : Firing} (wf : f.graph.WellFormed)
    (fed : f.generator.Fed f.graph f.bindings) {p : Proposal} (proposed : p ∈ f.proposals) :
    ∃ σ, RuleGenerator.Instances f.graph σ f.generator.rule.rule.premises f.assignment ∧
      f.generator.Concludes f.answer.2 σ p := by
  obtain ⟨_, proposals, ok, sound, _⟩ := f.generator.generate_spec wf fed
  have same : f.proposals = proposals := by
    simp only [Firing.proposals, answer, ok]
  exact sound p (same ▸ proposed)

end Firing

namespace Engine

/-! ### The list of calls -/

/-- The calls of generators that stand in the slots from `slot` on, up to the first that fails. -/
def generatorFirings (fact : EdgeId) (bindings : List Binding) :
    (slot : Nat) → List RuleGenerator → Engine Custom → List Firing
  | _, [], _ => []
  | slot, r :: rest, e =>
    ⟨fact, r, slot, bindings, e.graph⟩ ::
      match runGenerators bindings [r] e with
      | (.error _, _) => []
      | (.ok (), e) => generatorFirings fact bindings (slot + 1) rest e

/-- The calls for completed patterns, in order. -/
def matchFirings (fact : EdgeId) : List (Match RuleGenerator Factor) → Engine Custom → List Firing
  | [], _ => []
  | m :: rest, e =>
    generatorFirings fact m.bindings 0 m.actions.generators e ++
      match runMatch m e with
      | (.error _, _) => []
      | (.ok (), e) => matchFirings fact rest e

/-- The calls when a committed fact is matched against the patterns. -/
def fireFirings (e : Engine Custom) (id : EdgeId) : List Firing :=
  match e.trie.matchEdge e.facts e.graph id with
  | .error _ => []
  | .ok (found, _) =>
    matchFirings id found
      { e with stats := { e.stats with matched := e.stats.matched + found.length } }

/-- The calls when a fact is committed. -/
def commitFirings (e : Engine Custom) (id : EdgeId) (matching : Bool) : List Firing :=
  match e.graph.edge id with
  | .error _ => []
  | .ok edge =>
    match e.record id edge with
    | (false, _) => []
    | (true, e) => if matching then e.fireFirings id else []

/-! ### Effects -/

/-- What effects with these calls guarantee. -/
structure Effects (e : Engine Custom) (calls : List Firing)
    (answer : Except EngineError Unit × Engine Custom) : Prop where
  ok : answer.1 = .ok ()
  coherent : answer.2.Coherent
  frame : Frame e answer.2
  /-- Every call is given a fact for every premise, in a graph between those before and after. -/
  called : ∀ f ∈ calls, f.graph.WellFormed ∧ f.generator.Fed f.graph f.bindings ∧
    e.graph.Extends f.graph ∧ f.answer.2.Extends answer.2.graph
  /-- What has become pending was proposed. -/
  pending : ∀ id ∈ answer.2.agenda.pending,
    id ∈ e.agenda.pending ∨ ∃ f ∈ calls, ∃ p ∈ f.proposals, p.edge = id
  counted : answer.2.stats.firings = e.stats.firings + calls.length

variable {e e' : Engine Custom}

theorem Effects.nil (coherent : e.Coherent) : Effects e [] (.ok (), e) :=
  ⟨rfl, coherent, .refl coherent.graph, by simp, fun _ mem => .inl mem, rfl⟩

theorem Effects.append {calls others : List Firing}
    {answer : Except EngineError Unit × Engine Custom}
    (first : Effects e calls (.ok (), e')) (second : Effects e' others answer) :
    Effects e (calls ++ others) answer := by
  refine ⟨second.ok, second.coherent, first.frame.trans second.frame, fun f mem => ?_,
    fun id mem => ?_, ?_⟩
  · rcases List.mem_append.mp mem with mem | mem
    · obtain ⟨wf, fed, before, after⟩ := first.called f mem
      exact ⟨wf, fed, before, after.trans second.frame.grows.extends_⟩
    · obtain ⟨wf, fed, before, after⟩ := second.called f mem
      exact ⟨wf, fed, first.frame.grows.extends_.trans before, after⟩
  · rcases second.pending id mem with old | ⟨f, called, proposed⟩
    · rcases first.pending id old with older | ⟨f, called, proposed⟩
      · exact .inl older
      · exact .inr ⟨f, List.mem_append_left _ called, proposed⟩
    · exact .inr ⟨f, List.mem_append_right _ called, proposed⟩
  · have before := first.counted
    simp only at before
    rw [second.counted, before, List.length_append, Nat.add_assoc]

/-! ### Proposals -/

/-- Effects on the agenda and the counts: the candidates keep their entries, and those that come are
from these proposals. -/
structure Proposes (e : Engine Custom) (proposals : List Proposal) (e' : Engine Custom) : Prop where
  others : e' = { e with agenda := e'.agenda, stats := e'.stats }
  linked : e'.agenda.Linked
  kept : ∀ x ∈ e.agenda.toList, x ∈ e'.agenda.toList
  new : ∀ x ∈ e'.agenda.toList,
    x ∈ e.agenda.toList ∨ ∃ p ∈ proposals, x.edge = p.edge ∧ x.score = p.score
  there : ∀ p ∈ proposals, p.edge ∈ e'.agenda.pending ∨ e'.facts.contains p.edge = true
  firings : e'.stats.firings = e.stats.firings

theorem mem_pending_of_mem {a : Agenda} {x : Entry} (mem : x ∈ a.toList) : x.edge ∈ a.pending :=
  List.mem_map_of_mem mem

/-- Adding a candidate that is live does not fail. -/
theorem addCandidate_spec {id : EdgeId} {edge : Edge} (linked : e.agenda.Linked)
    (live : e.graph.edges.get? id = some edge) (score : Score) :
    ∃ added, (e.addCandidate id score).1 = .ok added ∧
      Proposes e [⟨id, score⟩] (e.addCandidate id score).2 := by
  unfold addCandidate
  split
  · rename_i known
    refine ⟨false, rfl, rfl, linked, fun _ mem => mem, fun _ mem => .inl mem, ?_, rfl⟩
    intro p mem
    obtain rfl := List.mem_singleton.mp mem
    rcases Bool.or_eq_true_iff.mp known with pending | committed
    · exact .inl (linked.contains_iff.mp pending)
    · exact .inr committed
  · rename_i new
    have absent : e.agenda.contains id = false := by
      cases pending : e.agenda.contains id <;> simp_all
    obtain ⟨ok, linked', perm⟩ := linked.add absent edge score (e.priority.of e.graph edge score)
    simp only [Graph.edge_eq_ok_iff.mpr live]
    generalize e.agenda.add id edge score (e.priority.of e.graph edge score) = answer
      at ok linked' perm ⊢
    obtain ⟨result, agenda⟩ := answer
    obtain rfl : result = .ok () := ok
    refine ⟨true, rfl, rfl, linked', fun x mem => ?_, fun x mem => ?_, fun p mem => ?_, rfl⟩
    · exact perm.mem_iff.mpr (List.mem_append_left _ mem)
    · rcases List.mem_append.mp (perm.mem_iff.mp mem) with old | added
      · exact .inl old
      · obtain rfl := List.mem_singleton.mp added
        exact .inr ⟨_, List.mem_singleton_self _, rfl, rfl⟩
    · obtain rfl := List.mem_singleton.mp mem
      left
      have added := perm.mem_iff.mpr (List.mem_append_right e.agenda.toList (List.mem_singleton_self
        (⟨id, distinct (edge.head :: edge.tail), score, e.priority.of e.graph edge score⟩ : Entry)))
      exact mem_pending_of_mem added

/-- Proposing live candidates does not fail. -/
theorem propose_spec {proposals : List Proposal} (linked : e.agenda.Linked)
    (live : ∀ p ∈ proposals, ∃ edge, e.graph.edges.get? p.edge = some edge) :
    (propose proposals e).1 = .ok () ∧ Proposes e proposals (propose proposals e).2 := by
  induction proposals generalizing e with
  | nil =>
    exact ⟨rfl, rfl, linked, fun _ mem => mem, fun _ mem => .inl mem, by simp, rfl⟩
  | cons p rest ih =>
    obtain ⟨⟨edge, liveP⟩, liveRest⟩ := List.forall_mem_cons.mp live
    rw [propose]
    let counted : Engine Custom :=
      { e with stats := { e.stats with generated := e.stats.generated + 1 } }
    obtain ⟨added, ok, first⟩ := addCandidate_spec (e := counted) linked liveP p.score
    simp only
    generalize counted.addCandidate p.edge p.score = answer at ok first
    obtain ⟨result, e₁⟩ := answer
    obtain rfl : result = .ok added := ok
    replace first : Proposes counted [⟨p.edge, p.score⟩] e₁ := first
    have graph : e₁.graph = e.graph := by rw [first.others]
    obtain ⟨ok, second⟩ := ih first.linked fun q mem => by
      simpa only [graph] using liveRest q mem
    refine ⟨ok, ?_, second.linked, fun x mem => second.kept x (first.kept x mem), fun x mem => ?_,
      fun q mem => ?_, by rw [second.firings, first.firings]⟩
    · rw [second.others, first.others]
    · rcases second.new x mem with old | ⟨q, memQ, same⟩
      · rcases first.new x old with older | ⟨q, memQ, same⟩
        · exact .inl older
        · obtain rfl := List.mem_singleton.mp memQ
          exact .inr ⟨p, List.mem_cons_self, same⟩
      · exact .inr ⟨q, List.mem_cons_of_mem _ memQ, same⟩
    · rcases List.mem_cons.mp mem with rfl | mem
      · rcases first.there ⟨q.edge, q.score⟩ (List.mem_singleton_self _) with pending | committed
        · obtain ⟨x, memX, same⟩ := List.mem_map.mp pending
          exact .inl (same ▸ mem_pending_of_mem (second.kept x memX))
        · right
          rw [second.others]
          exact committed
      · exact second.there q mem

/-! ### Generators, factors and matches -/

/-- Nothing that was pending is lost or changed, and every proposal is pending or committed. -/
structure Delivers (e : Engine Custom) (calls : List Firing) (e' : Engine Custom) : Prop where
  kept : ∀ x ∈ e.agenda.toList, x ∈ e'.agenda.toList
  new : ∀ x ∈ e'.agenda.toList, x ∈ e.agenda.toList ∨
    ∃ f ∈ calls, ∃ p ∈ f.proposals, x.edge = p.edge ∧ x.score = p.score
  there : ∀ f ∈ calls, ∀ p ∈ f.proposals,
    p.edge ∈ e'.agenda.pending ∨ e'.facts.contains p.edge = true

theorem Delivers.nil (e : Engine Custom) : Delivers e [] e :=
  ⟨fun _ mem => mem, fun _ mem => .inl mem, by simp⟩

theorem Delivers.append {e'' : Engine Custom} {calls others : List Firing}
    (first : Delivers e calls e') (second : Delivers e' others e'') (facts : e''.facts = e'.facts) :
    Delivers e (calls ++ others) e'' := by
  refine ⟨fun x mem => second.kept x (first.kept x mem), fun x mem => ?_, fun f mem p proposed => ?_⟩
  · rcases second.new x mem with old | ⟨f, called, proposed⟩
    · rcases first.new x old with older | ⟨f, called, proposed⟩
      · exact .inl older
      · exact .inr ⟨f, List.mem_append_left _ called, proposed⟩
    · exact .inr ⟨f, List.mem_append_right _ called, proposed⟩
  · rcases List.mem_append.mp mem with mem | mem
    · rcases first.there f mem p proposed with pending | committed
      · obtain ⟨x, memX, same⟩ := List.mem_map.mp pending
        exact .inl (same ▸ mem_pending_of_mem (second.kept x memX))
      · exact .inr (facts ▸ committed)
    · exact second.there f mem p proposed

variable (fact : EdgeId) {bindings : List Binding}

theorem runGenerators_cons (r : RuleGenerator) (rest : List RuleGenerator) (e : Engine Custom) :
    runGenerators bindings (r :: rest) e =
      match runGenerators bindings [r] e with
      | (.error failure, e) => (.error failure, e)
      | (.ok (), e) => runGenerators bindings rest e := by
  simp only [runGenerators]
  generalize r.generate bindings e.graph = answer
  obtain ⟨_ | proposals, graph⟩ := answer
  · rfl
  · simp only
    generalize propose proposals (_ : Engine Custom) = answer
    obtain ⟨_ | _, e'⟩ := answer <;> rfl

/-- Asking a generator that is given a fact for every premise. -/
theorem runGenerator_effects (coherent : e.Coherent) {r : RuleGenerator} (slot : Nat)
    (fed : r.Fed e.graph bindings) :
    Effects e [⟨fact, r, slot, bindings, e.graph⟩] (runGenerators bindings [r] e) ∧
      Delivers e [⟨fact, r, slot, bindings, e.graph⟩] (runGenerators bindings [r] e).2 := by
  obtain ⟨grows, proposals, ok, sound, _⟩ := r.generate_spec coherent.graph fed
  have proposed : Firing.proposals ⟨fact, r, slot, bindings, e.graph⟩ = proposals := by
    simp [Firing.proposals, Firing.answer, ok]
  have extends_ : (r.generate bindings e.graph).2 =
      (Firing.mk fact r slot bindings e.graph).answer.2 :=
    rfl
  simp only [runGenerators]
  generalize r.generate bindings e.graph = answer at grows ok sound extends_
  obtain ⟨result, graph⟩ := answer
  obtain rfl : result = .ok proposals := ok
  let counted : Engine Custom :=
    { e with graph, stats := { e.stats with firings := e.stats.firings + 1 } }
  obtain ⟨ok, proposes⟩ := propose_spec (e := counted) coherent.agenda fun p mem => by
    obtain ⟨_, _, edge, _, live, _⟩ := sound p mem
    exact ⟨edge, live⟩
  simp only
  generalize propose proposals counted = answer at ok proposes
  obtain ⟨result, e'⟩ := answer
  obtain rfl : result = .ok () := ok
  replace proposes : Proposes counted proposals e' := proposes
  simp only at grows sound
  have graph' : e'.graph = graph := by rw [proposes.others]
  have frame : Frame e e' := ⟨graph' ▸ grows, by rw [proposes.others]⟩
  have delivers : Delivers e [⟨fact, r, slot, bindings, e.graph⟩] e' := by
    refine ⟨proposes.kept, fun x mem => ?_, fun f mem p memP => ?_⟩
    · rcases proposes.new x mem with old | ⟨p, memP, same⟩
      · exact .inl old
      · exact .inr ⟨_, List.mem_singleton_self _, p, proposed.symm ▸ memP, same⟩
    · obtain rfl := List.mem_singleton.mp mem
      exact proposes.there p (proposed ▸ memP)
  have pending : ∀ id ∈ e'.agenda.pending, id ∈ e.agenda.pending ∨ ∃ p ∈ proposals, p.edge = id := by
    intro id mem
    obtain ⟨x, memX, rfl⟩ := List.mem_map.mp mem
    rcases proposes.new x memX with old | ⟨p, memP, same, _⟩
    · exact .inl (mem_pending_of_mem old)
    · exact .inr ⟨p, memP, same.symm⟩
  refine ⟨⟨rfl, coherent.of_frame frame proposes.linked fun id mem => ?_, frame, fun f mem => ?_,
    fun id mem => ?_, proposes.firings⟩, delivers⟩
  · rcases pending id mem with old | ⟨p, memP, rfl⟩
    · exact coherent.live_of_pending frame old
    · obtain ⟨_, _, edge, _, live, _⟩ := sound p memP
      exact ⟨edge, graph' ▸ live⟩
  · obtain rfl := List.mem_singleton.mp mem
    refine ⟨coherent.graph, fed, .refl _, ?_⟩
    rw [← extends_]
    exact graph' ▸ .refl graph
  · rcases pending id mem with old | ⟨p, memP, same⟩
    · exact .inl old
    · exact .inr ⟨_, List.mem_singleton_self _, p, proposed.symm ▸ memP, same⟩

/-- What identifies a call among those for a fact, apart from the graph. -/
def call (f : Firing) : EdgeId × RuleGenerator × Nat × List Binding :=
  (f.fact, f.generator, f.slot, f.bindings)

theorem runGenerators_effects (coherent : e.Coherent) {generators : List RuleGenerator} (slot : Nat)
    (fed : ∀ r ∈ generators, r.Fed e.graph bindings) :
    Effects e (generatorFirings fact bindings slot generators e)
        (runGenerators bindings generators e) ∧
      Delivers e (generatorFirings fact bindings slot generators e)
        (runGenerators bindings generators e).2 ∧
      (generatorFirings fact bindings slot generators e).map call =
        (generators.zipIdx slot).map fun x => (fact, x.1, x.2, bindings) := by
  induction generators generalizing e slot with
  | nil => exact ⟨.nil coherent, .nil e, rfl⟩
  | cons r rest ih =>
    obtain ⟨fedFirst, fedRest⟩ := List.forall_mem_cons.mp fed
    obtain ⟨effects, delivers⟩ := runGenerator_effects fact coherent slot fedFirst
    have ok := effects.ok
    rw [runGenerators_cons]
    simp only [generatorFirings]
    generalize runGenerators bindings [r] e = answer at effects delivers ok
    obtain ⟨result, e₁⟩ := answer
    obtain rfl : result = .ok () := ok
    obtain ⟨effectsRest, deliversRest, calls⟩ := ih effects.coherent (slot + 1) fun r mem =>
      (fedRest r mem).mono effects.frame.grows.extends_
    exact ⟨effects.append effectsRest, delivers.append deliversRest effectsRest.frame.facts,
      by simp [call, calls]⟩

/-- Factors only take candidates away, or change their scores. -/
theorem runFactors_effects (coherent : e.Coherent) (factors : List Factor) :
    Effects e [] (runFactors bindings factors e) := by
  induction factors generalizing e with
  | nil => exact .nil coherent
  | cons f rest ih =>
    obtain ⟨ok, linked, subset⟩ := f.rescore_spec bindings e.graph e.priority coherent.agenda
    rw [runFactors]
    generalize f.rescore bindings e.graph e.priority e.agenda = answer at ok linked subset
    obtain ⟨result, agenda⟩ := answer
    obtain rfl : result = .ok () := ok
    have frame : Frame e { e with agenda } := ⟨.refl coherent.graph, rfl⟩
    have coherent' : Coherent { e with agenda } := coherent.of_frame frame linked fun id mem =>
      coherent.pending id (subset id mem)
    have first : Effects e [] (.ok (), { e with agenda }) :=
      ⟨rfl, coherent', frame, by simp, fun id mem => .inl (subset id mem), rfl⟩
    exact first.append (ih coherent')

theorem runMatch_effects (coherent : e.Coherent) {m : Match RuleGenerator Factor}
    (fed : ∀ r ∈ m.actions.generators, r.Fed e.graph m.bindings) :
    Effects e (generatorFirings fact m.bindings 0 m.actions.generators e) (runMatch m e) ∧
      (m.actions.factors = [] →
        Delivers e (generatorFirings fact m.bindings 0 m.actions.generators e) (runMatch m e).2) := by
  obtain ⟨effects, delivers, _⟩ := runGenerators_effects fact coherent 0 fed
  have ok := effects.ok
  rw [runMatch]
  generalize runGenerators m.bindings m.actions.generators e = answer at effects delivers ok
  obtain ⟨result, e₁⟩ := answer
  obtain rfl : result = .ok () := ok
  constructor
  · simpa using effects.append (runFactors_effects effects.coherent m.actions.factors)
  · intro none
    simpa [none, runFactors] using delivers

theorem runMatches_effects (coherent : e.Coherent) {found : List (Match RuleGenerator Factor)}
    (fed : ∀ m ∈ found, ∀ r ∈ m.actions.generators, r.Fed e.graph m.bindings) :
    Effects e (matchFirings fact found e) (runMatches found e) ∧
      ((∀ m ∈ found, m.actions.factors = []) →
        Delivers e (matchFirings fact found e) (runMatches found e).2) ∧
      (matchFirings fact found e).map call = found.flatMap fun m =>
        m.actions.generators.zipIdx.map fun x => (fact, x.1, x.2, m.bindings) := by
  induction found generalizing e with
  | nil => exact ⟨.nil coherent, fun _ => .nil e, rfl⟩
  | cons m rest ih =>
    obtain ⟨fedFirst, fedRest⟩ := List.forall_mem_cons.mp fed
    obtain ⟨effects, delivers⟩ := runMatch_effects fact coherent fedFirst
    obtain ⟨_, _, calls⟩ := runGenerators_effects fact coherent 0 fedFirst
    have ok := effects.ok
    rw [runMatches, matchFirings]
    generalize runMatch m e = answer at effects delivers ok
    obtain ⟨result, e₁⟩ := answer
    obtain rfl : result = .ok () := ok
    obtain ⟨effectsRest, deliversRest, callsRest⟩ := ih effects.coherent fun m mem r memR =>
      (fedRest m mem r memR).mono effects.frame.grows.extends_
    refine ⟨effects.append effectsRest, fun none => ?_, by simp [calls, callsRest]⟩
    obtain ⟨noneFirst, noneRest⟩ := List.forall_mem_cons.mp none
    exact (delivers noneFirst).append (deliversRest noneRest) effectsRest.frame.facts

/-! ### Commits -/

variable {id : EdgeId} {edge : Edge}

theorem record_of_contains (known : e.facts.contains id = true) (edge : Edge) :
    e.record id edge = (false, e) := by
  rw [record, FactBase.add_of_contains known]

theorem record_of_new (new : e.facts.contains id = false) (edge : Edge) : e.record id edge =
    (true, { e with
      facts := (e.facts.add id edge).2, decisions := e.decisions.committed edge }) := by
  have added : (e.facts.add id edge).1 = true := by rw [FactBase.fst_add, new]; rfl
  rw [record]
  generalize e.facts.add id edge = answer at added ⊢
  obtain ⟨fresh, facts⟩ := answer
  obtain rfl : fresh = true := added
  rfl

/-- Entering a live fact into the fact base. -/
theorem Coherent.record (coherent : e.Coherent) (live : e.graph.edges.get? id = some edge) :
    (e.record id edge).2.Coherent := by
  cases known : e.facts.contains id with
  | true => rwa [record_of_contains known]
  | false =>
    rw [record_of_new known]
    refine ⟨coherent.graph, coherent.facts.add id edge, fun d x found => ?_, coherent.agenda,
      coherent.pending, coherent.trie, coherent.attached, coherent.placed, coherent.typed⟩
    rw [FactBase.edge?_add known] at found
    split at found
    · rename_i same
      obtain rfl := Option.some.inj found
      exact same ▸ live
    · exact coherent.committed d x found

/-- A fact that is not live is not committed. -/
theorem commitWith_of_dead (dead : e.graph.edges.get? id = none) (matching : Bool) :
    e.commitWith id matching = (.error (.store (.unknownEdge id)), e) ∧
      e.commitFirings id matching = [] := by
  simp [commitWith, commitFirings, Graph.edge, dead]

/-- A fact is not committed again. -/
theorem commitWith_of_contains (live : e.graph.edges.get? id = some edge)
    (known : e.facts.contains id = true) (matching : Bool) :
    e.commitWith id matching = (.ok false, e) ∧ e.commitFirings id matching = [] := by
  simp [commitWith, commitFirings, Graph.edge_eq_ok_iff.mpr live, record_of_contains known]

/-- Without matching, a fact is entered into the fact base and nothing else happens. -/
theorem commitWith_quietly (live : e.graph.edges.get? id = some edge)
    (new : e.facts.contains id = false) :
    e.commitWith id false = (.ok true, (e.record id edge).2) ∧ e.commitFirings id false = [] := by
  simp [commitWith, commitFirings, Graph.edge_eq_ok_iff.mpr live, record_of_new new]

/-- The pattern that a walk completes. -/
def matchOf (walk : List Move × Actions RuleGenerator Factor) : Match RuleGenerator Factor :=
  ⟨walk.2, bindingsOf walk.1⟩

/-- The patterns that a fact completes, once it is entered. -/
def completed (e : Engine Custom) (id : EdgeId) (edge : Edge) : List (Match RuleGenerator Factor) :=
  (e.trie.walks (e.facts.add id edge).2 e.graph (.start (.node edge.head))).map matchOf

/-- The engine with the fact entered, and with the patterns that it completes counted. -/
def entered (e : Engine Custom) (id : EdgeId) (edge : Edge) : Engine Custom :=
  { e with
    facts := (e.facts.add id edge).2
    decisions := e.decisions.committed edge
    stats := { e.stats with matched := e.stats.matched + (e.completed id edge).length } }

/-- Counting the patterns has no effects, and all of them have a fact for every premise of their
rules. -/
theorem Coherent.entered_effects (coherent : e.Coherent)
    (live : e.graph.edges.get? id = some edge) (new : e.facts.contains id = false) :
    Effects (e.record id edge).2 [] (.ok (), e.entered id edge) ∧
      ∀ m ∈ e.completed id edge, ∀ r ∈ m.actions.generators, r.Fed e.graph m.bindings := by
  have recorded := coherent.record live
  rw [record_of_new new] at recorded ⊢
  refine ⟨⟨rfl, ?_, ⟨.refl coherent.graph, rfl⟩, by simp, fun _ mem => .inl mem, rfl⟩,
    fun m mem r memR => ?_⟩
  · exact recorded.of_frame ⟨.refl coherent.graph, rfl⟩ recorded.agenda recorded.pending
  · obtain ⟨walk, listed, rfl⟩ := List.mem_map.mp mem
    exact recorded.fed listed memR

/-- A new live fact is entered, and then the patterns that it completes take effect. -/
theorem Coherent.commit_eq (coherent : e.Coherent)
    (live : e.graph.edges.get? id = some edge) (new : e.facts.contains id = false) :
    e.commitWith id true =
        ((runMatches (e.completed id edge) (e.entered id edge)).1.map fun _ => true,
          (runMatches (e.completed id edge) (e.entered id edge)).2) ∧
      e.commitFirings id true = matchFirings id (e.completed id edge) (e.entered id edge) := by
  have recorded := coherent.record live
  rw [record_of_new new] at recorded
  have committed : (e.facts.add id edge).2.edge? id = some edge := by
    rw [FactBase.edge?_add new, if_pos rfl]
  obtain ⟨work, matched⟩ := recorded.matchEdge_eq e.trie committed
  replace matched :
      e.trie.matchEdge (e.facts.add id edge).2 e.graph id = .ok (e.completed id edge, work) := matched
  simp only [commitWith, commitFirings, entered, Graph.edge_eq_ok_iff.mpr live,
    record_of_new new, if_true, fire, fireFirings, matched]
  generalize runMatches _ (_ : Engine Custom) = answer
  obtain ⟨_ | _, e₂⟩ := answer <;> simp [Except.map]

/-- Committing a new live fact does not fail. Its effects follow upon entering it into the fact base,
and the calls are those of the generators at the ends of the legal walks from its witness. -/
theorem Coherent.commit_effects (coherent : e.Coherent)
    (live : e.graph.edges.get? id = some edge) (new : e.facts.contains id = false) :
    (e.commitWith id true).1 = .ok true ∧
      Effects (e.record id edge).2 (e.commitFirings id true) (.ok (), (e.commitWith id true).2) ∧
      ((∀ path a, e.trie.actionsAt? path = some a → a.factors = []) →
        Delivers (e.record id edge).2 (e.commitFirings id true) (e.commitWith id true).2) ∧
      (e.commitFirings id true).map call =
        (e.trie.walks (e.facts.add id edge).2 e.graph (.start (.node edge.head))).flatMap fun walk =>
          walk.2.generators.zipIdx.map fun x => (id, x.1, x.2, bindingsOf walk.1) := by
  obtain ⟨count, fed⟩ := coherent.entered_effects live new
  obtain ⟨commits, firings⟩ := coherent.commit_eq live new
  obtain ⟨effects, delivers, calls⟩ := runMatches_effects id count.coherent fed
  rw [commits, firings]
  have ok := effects.ok
  generalize runMatches _ (_ : Engine Custom) = answer at effects delivers ok
  obtain ⟨result, e₁⟩ := answer
  obtain rfl : result = .ok () := ok
  refine ⟨rfl, count.append effects, fun none => ?_, by rw [calls, completed, List.flatMap_map]; rfl⟩
  have delivered := delivers fun m mem => by
    obtain ⟨walk, listed, rfl⟩ := List.mem_map.mp mem
    exact none _ _ (Trie.mem_walks_iff.mp listed).2
  rw [record_of_new new]
  exact ⟨delivered.kept, delivered.new, delivered.there⟩

end Engine

end ScoredChaining
