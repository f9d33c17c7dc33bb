import Mathlib.Order.Bounds.Basic
import ScoredChaining.Proofs.Engine.Termination

/-!
What an engine that accepts every candidate makes of given atoms.

* `Engine.feed`: commits facts that say given atoms.
* `Engine.Saturates`: how the engine ends that is fed and then runs until nothing is pending.
* `Engine.Prepared.run_least`: a prepared engine always gets there. What is committed then is the
  least set of atoms that has the given ones and is closed under the admitted instances of its
  rules. If all instances are open it is the least set that is closed under the rules, whatever the
  order of the atoms and the priority.
-/

namespace ScoredChaining

variable {Custom : Type} [Decider Custom]

/-- The sets that have the given atoms and are closed under the admitted instances of the rules. -/
def Atom.Models (admits : Rule → (String → Value) → Prop) (rules : List Rule) (given : List Atom) :
    Set (Set Atom) :=
  {S | (∀ a ∈ given, a ∈ S) ∧ Atom.Closed admits rules S}

/-- All instances of the rule over a set of atoms open the paths from all premises, of which there
is one at least. -/
def Rule.OpenOver (rule : Rule) (S : Set Atom) : Prop :=
  rule.premises ≠ [] ∧ ∀ ρ, (∀ t ∈ rule.premises, t.atom ρ ∈ S) →
    ∀ root < rule.premises.length, rule.Opens root (rule.premiseAtom ρ)

namespace Engine

/-- The rules that were added. -/
def program (e : Engine Custom) : List Rule :=
  e.rules.map CompiledRule.rule

/-- The atom is over a declared relation and has a value for each argument. -/
def Declares (e : Engine Custom) (a : Atom) : Prop :=
  ∃ r R, e.graph.schema.find? a.relation = some r ∧ e.graph.schema.relation? r = some R ∧
    a.values.length = R.arity

/-- Makes and commits facts that say the atoms, one after the other. -/
def feed (e : Engine Custom) (given : List Atom) : Engine Custom :=
  given.foldl (fun e a => (e.commitFact a.relation a.values .temporary true).2) e

/-- Fed with the atoms, the engine runs until nothing is pending, and is the other then. -/
def Saturates (e : Engine Custom) (given : List Atom) (final : Engine Custom) : Prop :=
  ∃ fuel, ((e.feed given).run .decoder fuel).ending = .exhausted ∧
    ((e.feed given).run .decoder fuel).engine = final

variable {e e' final : Engine Custom} {a : Atom} {given : List Atom} {id : EdgeId}

/-! ### Feeding -/

theorem Declares.mono (declared : e.Declares a) (extends_ : e.graph.Extends e'.graph) :
    e'.Declares a := by
  obtain ⟨r, R, found, isR, arity⟩ := declared
  exact ⟨r, R, extends_.schema.found found, extends_.schema.relation isR, arity⟩

theorem Declares.addRule (declared : e.Declares a) (coherent : e.Coherent) (rule : Rule)
    (scorer : Scorer) : (e.addRule rule scorer).2.Declares a := by
  have continues_ : Continues e ((Operation.addRule rule scorer).perform e) :=
    coherent.continues_perform (by simp)
  exact declared.mono continues_.graph

/-- A declared atom can be committed. -/
theorem Accepts.commitFact (accepts : Accepts e) (declared : e.Declares a) :
    ∃ ops id, (∀ op ∈ ops, op.Chains) ∧
      e.commitFact a.relation a.values .temporary true = (.ok (), e.performAll ops) ∧
      (e.performAll ops).graph.atom? id = some a ∧ id ∈ (e.performAll ops).facts.order ∧
      ∀ d, .commit d true ∈ ops → d = id := by
  obtain ⟨r, R, found, isR, arity⟩ := declared
  have wf := accepts.coherent.graph
  obtain ⟨id, made⟩ := Graph.makeEdgeFromValues_temporary wf isR arity
  obtain ⟨grows, spec⟩ := Graph.makeEdgeFromValues_spec wf r a.values .temporary
  obtain ⟨edge, R', live, rfl, fits⟩ := spec id made
  let making : Operation Custom := .makeEdgeFromValues edge.relation a.values .temporary
  have chains : making.Chains := trivial
  have advances := accepts.advances chains
  obtain ⟨added, ok, absorbs⟩ := advances.accepts.commit live
  have continues_ := advances.accepts.coherent.continues_commitWith id true
  have isAtom : (making.perform e).graph.atom? id = some a := by
    obtain ⟨R₁, isR₁, name⟩ := Schema.relation?_of_find? found
    obtain rfl : R = R₁ := Option.some.inj (isR.symm.trans isR₁)
    obtain rfl : R = R' :=
      Option.some.inj ((grows.extends_.schema.relation isR).symm.trans fits.relation)
    have same : (⟨R.name, a.values⟩ : Atom) = a := by rw [name]
    exact same ▸ fits.atom? live
  refine ⟨[making, .commit id true], id, ?_, ?_, ?_, absorbs.committed, ?_⟩
  · intro op mem
    rcases List.mem_cons.mp mem with rfl | mem
    · exact chains
    · obtain rfl := List.mem_singleton.mp mem
      rfl
  · rw [Engine.commitFact, Engine.makeFact, requireRelation, Schema.require, found]
    simp only [Except.mapError]
    have perform : e.makeEdgeFromValues edge.relation a.values .temporary =
        (.ok id, making.perform e) := by
      refine Prod.ext ?_ rfl
      simp [makeEdgeFromValues, made, Except.mapError]
    rw [perform]
    simp only [ok, Except.map]
    rfl
  · exact advances.accepts.coherent.graph.atom?_mono continues_.graph isAtom
  · intro d mem
    simpa [making] using mem

/-- Feeding chains, all the atoms are committed afterwards, and nothing else by request. -/
theorem Accepts.feed (accepts : Accepts e) (declared : ∀ a ∈ given, e.Declares a) :
    ∃ ops, (∀ op ∈ ops, op.Chains) ∧ e.feed given = e.performAll ops ∧
      (∀ a ∈ given, a ∈ (e.feed given).content) ∧
      ∀ id, .commit id true ∈ ops → ∃ a ∈ given, (e.feed given).graph.atom? id = some a := by
  induction given generalizing e with
  | nil => exact ⟨[], by simp, rfl, by simp, by simp⟩
  | cons a rest ih =>
    obtain ⟨declaredFirst, declaredRest⟩ := List.forall_mem_cons.mp declared
    obtain ⟨first, id, chainsFirst, commits, isAtom, committed, only⟩ :=
      accepts.commitFact declaredFirst
    have accepts' := (accepts.performAll chainsFirst).1
    have continues_ := accepts.continues_performAll chainsFirst
    obtain ⟨others, chainsRest, fed, given, asked⟩ :=
      ih accepts' fun a mem => (declaredRest a mem).mono continues_.graph
    have same : e.feed (a :: rest) = (e.performAll first).feed rest := by
      rw [Engine.feed, List.foldl_cons, commits]
      rfl
    have later : Continues (e.performAll first) ((e.performAll first).feed rest) :=
      fed ▸ accepts'.continues_performAll chainsRest
    have isAtom' := accepts'.coherent.graph.atom?_mono later.graph isAtom
    rw [same]
    refine ⟨first ++ others, ?_, ?_, ?_, ?_⟩
    · intro op mem
      exact (List.mem_append.mp mem).elim (chainsFirst op) (chainsRest op)
    · rw [fed, performAll_append]
    · intro b mem
      rcases List.mem_cons.mp mem with rfl | mem
      · exact mem_content_iff.mpr ⟨id, later.facts.order.subset committed, isAtom'⟩
      · exact given b mem
    · intro d mem
      rcases List.mem_append.mp mem with mem | mem
      · obtain rfl := only d mem
        exact ⟨a, List.mem_cons_self, isAtom'⟩
      · obtain ⟨b, isGiven, isAtom⟩ := asked d mem
        exact ⟨b, List.mem_cons_of_mem _ isGiven, isAtom⟩

/-! ### Running -/

/-- With candidates left, a run without a limit takes a step and goes on. -/
theorem Accepts.runWithin_succ (accepts : Accepts e) (left : e.agenda.isEmpty = false)
    (fuel : Nat) :
    let rest := runWithin .decoder fuel none ((Operation.step .decoder).perform e)
    (runWithin .decoder (fuel + 1) none e).ending = rest.ending ∧
      (runWithin .decoder (fuel + 1) none e).engine = rest.engine := by
  obtain ⟨_, _, s, _, _, _, _, _, _, stepped⟩ := accepts.step_spec left
  rw [Operation.perform, runWithin]
  generalize e.step .decoder = answer at stepped ⊢
  obtain rfl := stepped
  simp [left]

/-- A run without a limit takes steps and does not fail. -/
theorem Accepts.runWithin_spec (accepts : Accepts e) (fuel : Nat) :
    ∃ n, (runWithin .decoder fuel none e).engine = e.performAll (.replicate n (.step .decoder)) ∧
      ∀ failure, (runWithin .decoder fuel none e).ending ≠ .failed failure := by
  induction fuel generalizing e with
  | zero =>
    refine ⟨0, ?_⟩
    cases left : e.agenda.isEmpty <;> simp [runWithin, left]
  | succ fuel ih =>
    cases left : e.agenda.isEmpty with
    | true =>
      rw [runWithin_of_isEmpty left]
      exact ⟨0, rfl, by simp⟩
    | false =>
      obtain ⟨ending, engine⟩ := accepts.runWithin_succ left fuel
      obtain ⟨n, steps, succeeds⟩ := ih (accepts.advances_step left).accepts
      rw [ending, engine]
      exact ⟨n + 1, steps, succeeds⟩

/-! ### Prepared engines -/

/-- An engine that accepts every candidate, has rules without primed premises, and nothing committed
or pending yet. -/
structure Prepared (e : Engine Custom) : Prop where
  reachable : Reachable e
  accepting : Accepting e
  first : e.facts.order = []
  idle : e.agenda.isEmpty = true
  unlimited : e.settings.maxPops = none
  unprimed : ∀ c ∈ e.rules, ∀ t ∈ c.rule.premises, t.factVariable = none

theorem prepared_withPriority {settings : Settings} (unlimited : settings.maxPops = none)
    (priority : Priority) : Prepared (.withPriority settings priority : Engine Custom) :=
  ⟨.start settings priority, accepting_withPriority settings priority, rfl, rfl, unlimited,
    fun _ mem => by cases mem⟩

namespace Prepared

theorem declare (prepared : Prepared e) (name : String) (types : List String) :
    Prepared (e.declare name types).2 :=
  ⟨prepared.reachable.next (.declare name types), prepared.accepting.of_eq rfl rfl rfl,
    prepared.first, prepared.idle, prepared.unlimited, prepared.unprimed⟩

/-- An engine stays prepared if a rule is added that has no primed premises and scores above the
threshold. -/
theorem addRule (prepared : Prepared e) {rule : Rule}
    (unprimed : ∀ t ∈ rule.premises, t.factVariable = none) {x : Float}
    (above : e.settings.threshold < x) : Prepared (e.addRule rule (.constant x)).2 := by
  have reachable := prepared.reachable.next (.addRule rule (.constant x))
  have accepting := prepared.accepting.addRule prepared.reachable.coherent rule above
  have typed := @Rule.compile_typed rule e.graph.schema
  rw [Operation.perform] at reachable
  rw [Engine.addRule] at reachable accepting ⊢
  generalize rule.compile e.graph.schema = answer at reachable accepting typed ⊢
  obtain ⟨_ | compiled, s⟩ := answer
  · exact ⟨reachable, accepting, prepared.first, prepared.idle, prepared.unlimited,
      prepared.unprimed⟩
  · refine ⟨reachable, accepting, prepared.first, prepared.idle, prepared.unlimited, ?_⟩
    intro c mem
    rcases List.mem_append.mp mem with old | new
    · exact prepared.unprimed c old
    · obtain rfl := List.mem_singleton.mp new
      rw [(typed rfl).1]
      exact unprimed

theorem accepts (prepared : Prepared e) : Accepts e := by
  refine ⟨prepared.reachable.coherent, prepared.accepting, ?_⟩
  intro x mem
  simp [Agenda.toList_of_isEmpty prepared.idle] at mem

theorem not_known (prepared : Prepared e) : ¬Known e id := by
  rintro (pending | committed)
  · simp [Agenda.pending_of_isEmpty prepared.idle] at pending
  · simp [prepared.first] at committed

variable {n : Nat} (prepared : Prepared e) (declared : ∀ a ∈ given, e.Declares a)
include prepared declared

/-- The engine that is fed accepts, and runs without a limit. -/
theorem accepts_feed : Accepts (e.feed given) ∧ (e.feed given).settings.maxPops = none := by
  obtain ⟨ops, chains, fed, _⟩ := prepared.accepts.feed declared
  obtain ⟨accepts, settings, _⟩ := prepared.accepts.performAll chains
  rw [fed, settings]
  exact ⟨accepts, prepared.unlimited⟩

/-- Feeding and steps chain, and commit the given atoms and nothing else by request. -/
theorem exists_ops (steps : (e.feed given).performAll (.replicate n (.step .decoder)) = final) :
    ∃ ops, (∀ op ∈ ops, op.Chains) ∧ e.performAll ops = final ∧ (∀ a ∈ given, a ∈ final.content) ∧
      ∀ id, .commit id true ∈ ops → ∃ a ∈ given, final.graph.atom? id = some a := by
  obtain ⟨ops, chains, fed, isContent, asked⟩ := prepared.accepts.feed declared
  have accepts := (prepared.accepts_feed declared).1
  have stepping : ∀ op ∈ List.replicate n (.step .decoder : Operation Custom), op.Chains := by
    intro op mem
    rw [List.eq_of_mem_replicate mem]
    rfl
  have continues_ : Continues (e.feed given) final := steps ▸ accepts.continues_performAll stepping
  refine ⟨ops ++ .replicate n (.step .decoder), ?_, ?_, ?_, ?_⟩
  · intro op mem
    exact (List.mem_append.mp mem).elim (chains op) (stepping op)
  · rw [performAll_append, ← fed, steps]
  · intro a mem
    exact (continues_.content_prefix accepts.coherent).subset (isContent a mem)
  · intro id mem
    have mem : .commit id true ∈ ops := by simpa using mem
    obtain ⟨a, isGiven, isAtom⟩ := asked id mem
    exact ⟨a, isGiven, accepts.coherent.graph.atom?_mono continues_.graph isAtom⟩

/-- Whatever has the given atoms and is closed under the admitted instances has all that is ever
committed. -/
theorem content_subset (steps : (e.feed given).performAll (.replicate n (.step .decoder)) = final)
    {S : Set Atom} (model : S ∈ Atom.Models (Rule.Admitted final.content) e.program given) :
    ∀ a ∈ final.content, a ∈ S := by
  obtain ⟨ops, chains, performed, _, asked⟩ := prepared.exists_ops declared steps
  refine prepared.accepts.sound (fun c mem => List.mem_map_of_mem mem) chains performed model.2
    (fun id known => absurd known prepared.not_known) fun id mem a isAtom => ?_
  obtain ⟨b, isGiven, isAtom'⟩ := asked id mem
  obtain rfl := Option.some.inj (isAtom.symm.trans isAtom')
  exact model.1 _ isGiven

/-- The run ends. -/
theorem exists_saturates : ∃ final, e.Saturates given final := by
  obtain ⟨ops, chains, fed, _⟩ := prepared.accepts.feed declared
  obtain ⟨accepts, unlimited⟩ := prepared.accepts_feed declared
  have reachable : Reachable (e.feed given) := fed ▸ prepared.reachable.performAll ops
  have rules : (e.feed given).rules = e.rules := fed ▸ prepared.accepts.rules_performAll chains
  obtain ⟨fuel, ⟨exhausted, _⟩ | ⟨failure, failed⟩⟩ :=
    reachable.coherent.exists_enough (rules.symm ▸ prepared.unprimed) .decoder
  · refine ⟨_, fuel, ?_, rfl⟩
    rwa [run, unlimited]
  · obtain ⟨_, _, succeeds⟩ := accepts.runWithin_spec fuel
    exact absurd failed (succeeds _)

theorem exists_steps (saturates : e.Saturates given final) :
    final.agenda.isEmpty = true ∧
      ∃ n, (e.feed given).performAll (.replicate n (.step .decoder)) = final := by
  obtain ⟨accepts, unlimited⟩ := prepared.accepts_feed declared
  obtain ⟨fuel, ended, rfl⟩ := saturates
  rw [run, unlimited] at ended ⊢
  obtain ⟨n, steps, _⟩ := accepts.runWithin_spec fuel
  exact ⟨isEmpty_of_exhausted ended, n, steps.symm⟩

theorem coherent_final (saturates : e.Saturates given final) : final.Coherent := by
  obtain ⟨_, n, steps⟩ := prepared.exists_steps declared saturates
  exact steps ▸ (prepared.accepts_feed declared).1.coherent.performAll _

/-- What is committed in the end is the least set that has the given atoms and is closed under the
admitted instances. -/
theorem isLeast (saturates : e.Saturates given final) :
    IsLeast (Atom.Models (Rule.Admitted final.content) e.program given)
      {a | a ∈ final.content} := by
  obtain ⟨idle, n, steps⟩ := prepared.exists_steps declared saturates
  obtain ⟨ops, chains, performed, isContent, _⟩ := prepared.exists_ops declared steps
  constructor
  · refine ⟨isContent, ?_⟩
    exact prepared.accepts.closed prepared.first prepared.unprimed chains performed idle
  · intro S model a mem
    exact prepared.content_subset declared steps model a mem

/-- If all instances over the least set that is closed under the rules are open, it is what is
committed in the end. -/
theorem isLeast_of_open (saturates : e.Saturates given final)
    (isOpen : ∀ rule ∈ e.program,
      rule.OpenOver (⋂₀ Atom.Models (fun _ _ => True) e.program given)) :
    IsLeast (Atom.Models (fun _ _ => True) e.program given) {a | a ∈ final.content} := by
  obtain ⟨⟨isContent, closed⟩, least⟩ := prepared.isLeast declared saturates
  have below : ∀ S ∈ Atom.Models (fun _ _ => True) e.program given, ∀ a ∈ final.content, a ∈ S := by
    intro S model
    refine least ⟨model.1, fun rule isRule ρ _ premises => ?_⟩
    exact model.2 rule isRule ρ trivial premises
  refine ⟨⟨isContent, fun rule isRule ρ _ premises => ?_⟩, below⟩
  obtain ⟨nonempty, opens⟩ := isOpen rule isRule
  refine closed rule isRule ρ ?_ premises
  refine Rule.admitted_of_opens nonempty premises (opens ρ fun t mem => ?_)
  exact Set.mem_sInter.mpr fun S model => below S model _ (premises t mem)

/-- If all instances are open, neither the engine nor the order of the atoms matters. -/
theorem content_perm (saturates : e.Saturates given final)
    (isOpen : ∀ rule ∈ e.program,
      rule.OpenOver (⋂₀ Atom.Models (fun _ _ => True) e.program given))
    {given' : List Atom} {final' : Engine Custom} (prepared' : Prepared e')
    (sameRules : ∀ rule, rule ∈ e'.program ↔ rule ∈ e.program)
    (declared' : ∀ a ∈ given', e'.Declares a) (sameAtoms : ∀ a, a ∈ given' ↔ a ∈ given)
    (saturates' : e'.Saturates given' final') : final'.content.Perm final.content := by
  have models : Atom.Models (fun _ _ => True) e'.program given' =
      Atom.Models (fun _ _ => True) e.program given := by
    simp only [Atom.Models, Atom.Closed, sameRules, sameAtoms]
  have least := prepared.isLeast_of_open declared saturates isOpen
  have least' : IsLeast (Atom.Models (fun _ _ => True) e'.program given')
      {a | a ∈ final'.content} := by
    apply prepared'.isLeast_of_open declared' saturates'
    intro rule isRule
    rw [models]
    exact isOpen rule ((sameRules rule).mp isRule)
  rw [models] at least'
  have same := least'.unique least
  refine (List.perm_ext_iff_of_nodup ?_ ?_).mpr fun a => Set.ext_iff.mp same a
  · exact (prepared'.coherent_final declared' saturates').nodup_content
  · exact (prepared.coherent_final declared saturates).nodup_content

end Prepared

/-! ### The least fixpoint -/

/-- Fed with declared atoms, a prepared engine runs until nothing is pending. What is committed then
is the least set that has the given atoms and is closed under the admitted instances of the rules,
and instances without two equal premises are admitted. If all instances are open, it is the least
set that is closed under the rules, and the same for every prepared engine with these rules that is
fed with the atoms in any order. -/
theorem Prepared.run_least (prepared : Prepared e) (declared : ∀ a ∈ given, e.Declares a) :
    (∃ final, e.Saturates given final) ∧ ∀ final, e.Saturates given final →
      IsLeast (Atom.Models (Rule.Admitted final.content) e.program given)
        {a | a ∈ final.content} ∧
      (∀ rule ∈ e.program, rule.premises ≠ [] → ∀ ρ,
        (∀ t ∈ rule.premises, t.atom ρ ∈ final.content) →
          (rule.premises.map (Term.atom ρ)).Nodup → rule.Admitted final.content ρ) ∧
      ((∀ rule ∈ e.program,
          rule.OpenOver (⋂₀ Atom.Models (fun _ _ => True) e.program given)) →
        IsLeast (Atom.Models (fun _ _ => True) e.program given) {a | a ∈ final.content} ∧
        ∀ (e' : Engine Custom) given' final', Prepared e' →
          (∀ rule, rule ∈ e'.program ↔ rule ∈ e.program) →
          (∀ a ∈ given', e'.Declares a) → (∀ a, a ∈ given' ↔ a ∈ given) →
          e'.Saturates given' final' → final'.content.Perm final.content) := by
  refine ⟨prepared.exists_saturates declared, fun final saturates => ⟨?_, ?_, fun isOpen => ?_⟩⟩
  · exact prepared.isLeast declared saturates
  · exact fun rule _ nonempty ρ => Rule.admitted_of_injective nonempty
  · refine ⟨prepared.isLeast_of_open declared saturates isOpen, ?_⟩
    intro e' given' final' prepared' sameRules declared' sameAtoms saturates'
    exact prepared.content_perm declared saturates isOpen prepared' sameRules declared' sameAtoms
      saturates'

/-- Links from 1 to 2 and from 2 to itself. -/
def looped : List Atom :=
  [⟨"link", [.int 1, .int 2]⟩, ⟨"link", [.int 2, .int 2]⟩]

theorem prepared_linkable : Prepared linkable :=
  (prepared_withPriority rfl .byScore).declare "link" ["point", "point"]

theorem declares_link (i j : Int64) : linkable.Declares ⟨"link", [.int i, .int j]⟩ :=
  have found : linkable.graph.schema.find? "link" = some ⟨0⟩ := by decide +kernel
  ⟨⟨0⟩, ⟨"link", [⟨0⟩, ⟨0⟩], ⟨1⟩⟩, found, by decide +kernel, rfl⟩

/-- The paths of the rule about links never cross a link twice. -/
theorem openOver_chainRule (S : Set Atom) : chainRule.OpenOver S := by
  refine ⟨by decide, ?_⟩
  intro ρ _ root bound
  have unnamed : ∀ root < 2, chainRule.Opens root fun _ => () := by decide +kernel
  exact (unnamed root bound).of_names bound fun _ _ _ _ _ => rfl

/-- The link from 2 to itself fills both premises of the rule about links. -/
theorem run_least_looped : Prepared chaining ∧ (∀ a ∈ looped, chaining.Declares a) ∧
    ∃ final, chaining.Saturates looped final ∧
      final.content = looped ++ [⟨"path", [.int 1, .int 2]⟩, ⟨"path", [.int 2, .int 2]⟩] ∧
      IsLeast (Atom.Models (fun _ _ => True) chaining.program looped) {a | a ∈ final.content} := by
  have prepared : Prepared chaining :=
    prepared_linkable.addRule (by decide) (by decide +kernel)
  have declared : ∀ a ∈ looped, chaining.Declares a := by
    have link : ∀ i j, chaining.Declares ⟨"link", [.int i, .int j]⟩ := fun i j =>
      (declares_link i j).addRule reachable_linkable.coherent chainRule _
    simpa [looped] using ⟨link 1 2, link 2 2⟩
  have saturates : chaining.Saturates looped ((chaining.feed looped).run .decoder 3).engine :=
    ⟨3, by decide +kernel, rfl⟩
  have program : chaining.program = [chainRule] := by decide +kernel
  have isOpen : ∀ rule ∈ chaining.program,
      rule.OpenOver (⋂₀ Atom.Models (fun _ _ => True) chaining.program looped) := by
    rw [program]
    exact List.forall_mem_singleton.mpr (openOver_chainRule _)
  have least := ((prepared.run_least declared).2 _ saturates).2.2 isOpen
  exact ⟨prepared, declared, _, saturates, by decide +kernel, least.1⟩

/-- Links that go both ways mark a point. -/
def returnRule : Rule :=
  ⟨[⟨"link", none, [.var "x", .var "y"]⟩, ⟨"link", none, [.var "y", .var "x"]⟩],
    ⟨"mark", none, [.var "x"]⟩, none⟩

/-- The path of this rule crosses a link of the fact twice that leads from 1 to itself, so that 1 is
not marked. -/
theorem not_isLeast_crossed : ¬ ∀ (e : Engine) given final, Prepared e →
    (∀ a ∈ given, e.Declares a) →
    e.Saturates given final →
    IsLeast (Atom.Models (fun _ _ => True) e.program given) {a | a ∈ final.content} := by
  intro least
  let e := (linkable.addRule returnRule (.constant 1.0)).2
  let given : List Atom := [⟨"link", [.int 1, .int 1]⟩]
  have prepared : Prepared e := prepared_linkable.addRule (by decide) (by decide +kernel)
  have declared : ∀ a ∈ given, e.Declares a := List.forall_mem_singleton.mpr
    ((declares_link 1 1).addRule reachable_linkable.coherent returnRule _)
  have saturates : e.Saturates given ((e.feed given).run .decoder 0).engine :=
    ⟨0, by decide +kernel, rfl⟩
  have content : ((e.feed given).run .decoder 0).engine.content = given := by decide +kernel
  have program : e.program = [returnRule] := by decide +kernel
  obtain ⟨⟨_, closed⟩, _⟩ := least e given _ prepared declared saturates
  rw [program, content] at closed
  have marked := closed returnRule List.mem_cons_self (fun _ => .int 1) trivial (by decide)
  exact absurd marked (by decide)

end Engine

end ScoredChaining
