import ScoredChaining.Proofs.Engine.Agreement
import ScoredChaining.Proofs.Engine.Recording
import ScoredChaining.Proofs.Engine.Steps
import ScoredChaining.Proofs.Rule.Atoms

/-!
Typed rules do not go wrong. No policy is of a custom kind here, since such a policy may fail as it
likes.

* `Firing.Finds`: every look-up of a call of a generator finds what it is for.
* `Engine.Resolves`: every number and every place that an engine keeps leads somewhere.
* `Engine.Built`: the engines that operations make of a new one, if group constraints are made for
  their relations.
* `Engine.Built.safe`: commits do not fail. Steps and runs fail only when a committee that is part
  of the policies disagrees about a candidate (`Engine.Disagrees`).
-/

namespace ScoredChaining

/-! ### Calls -/

/-- Every look-up that a call of a generator makes finds what it is for. -/
structure Firing.Finds (f : Firing) : Prop where
  /-- The facts are live, the premises that they are to fill are there, and each fact has a live
  node at every position of its premise. -/
  premises : ∀ x ∈ f.assignment, ∃ edge t, f.graph.edges.get? x.1 = some edge ∧
    f.generator.rule.rule.premises[x.2]? = some t ∧
    ∀ y ∈ t.positions, ∃ n node, edge.nodeAt? y.1 = some n ∧ f.graph.nodes.get? n = some node
  /-- The relation of the conclusion is declared, and has a type for every argument. -/
  conclusion : ∃ R, f.graph.schema.relation? f.generator.rule.conclusionRelation = some R ∧
    R.arity = f.generator.rule.rule.conclusion.args.length
  /-- If the facts unify, every variable of the conclusion is known. -/
  known : ∀ env,
    RuleGenerator.unify f.graph f.generator.rule.rule.premises f.assignment [] = .ok (some env) →
    ∀ name, .var name ∈ f.generator.rule.rule.conclusion.args → ∃ n, env.lookup name = some n
  /-- What is proposed is live. -/
  answer : ∃ proposals, f.answer.1 = .ok proposals ∧
    ∀ p ∈ proposals, ∃ edge, f.answer.2.edges.get? p.edge = some edge

/-- The arguments of a typed conclusion are as many as its types. -/
theorem Arg.Typed.length {types : VariableTypes} {args : List Arg} {declared : List TypeId}
    (typed : Arg.Typed types args declared) : declared.length = args.length := by
  induction args generalizing declared with
  | nil =>
    cases declared with
    | nil => rfl
    | cons _ _ => simp [Arg.Typed] at typed
  | cons a args ih =>
    cases declared with
    | nil => cases a <;> simp [Arg.Typed] at typed
    | cons type declared =>
      cases a with
      | var name => simpa using ih typed.2
      | const c => simpa using ih typed

/-- A live fact has a node for every argument of its relation. -/
theorem Graph.WellFormed.exists_tail {g : Graph} (wf : g.WellFormed) {id : EdgeId} {edge : Edge}
    (live : g.edges.get? id = some edge) {R : Relation}
    (isR : g.schema.relation? edge.relation = some R) {k : Nat} (bound : k < R.arity) :
    ∃ n, edge.tail[k]? = some n := by
  obtain ⟨R', values, fits⟩ := wf.fits live
  obtain rfl : R = R' := Option.some.inj (isR.symm.trans fits.relation)
  have boundTail : k < edge.tail.length := by
    rw [fits.holds.length_tail]
    exact bound
  exact ⟨_, List.getElem?_eq_getElem boundTail⟩

/-- A call in which every premise is given a fact of its relation finds everything. -/
theorem Firing.finds {f : Firing} (wf : f.graph.WellFormed)
    (fed : f.generator.Fed f.graph f.bindings) : f.Finds := by
  obtain ⟨R, _, isR, typedArgs⟩ := fed.typed.conclusion
  refine ⟨fun x paired => ?_, ⟨R, isR, typedArgs.length⟩, fun env unified name isArg => ?_, ?_⟩
  · obtain ⟨edge, live, isRelation⟩ := fed.related x paired
    obtain ⟨bound, isRelation⟩ := List.getElem?_eq_some_iff.mp isRelation
    have boundPremise : x.2 < f.generator.rule.rule.premises.length := by
      rwa [fed.typed.premises.length_eq]
    obtain ⟨R, _, isR, arity, _⟩ := fed.typed.premises.get boundPremise bound
    simp only [List.get_eq_getElem, isRelation] at isR arity
    refine ⟨edge, _, live, List.getElem?_eq_getElem boundPremise, fun y mem => ?_⟩
    obtain ⟨n, at_⟩ : ∃ n, edge.nodeAt? y.1 = some n := by
      obtain ⟨p, a⟩ := y
      cases p with
      | head => exact ⟨edge.head, rfl⟩
      | tail i =>
        have isArg : f.generator.rule.rule.premises[x.2].args[i]? = some a :=
          Term.mem_positions.mp mem
        obtain ⟨boundArg, _⟩ := List.getElem?_eq_some_iff.mp isArg
        exact wf.exists_tail live isR (arity ▸ boundArg)
    obtain ⟨_, type, v, _, _, found⟩ := RuleGenerator.live_of_nodeAt? wf live at_
    exact ⟨n, _, at_, found⟩
  · have known := RuleGenerator.typedBy_of_unify wf fed.typed fed.related
      (fun _ => fed.exists_pair) unified
    obtain ⟨type, isType⟩ := typedArgs.lookup isArg
    obtain ⟨n, _, found, _⟩ := known name type isType
    exact ⟨n, found⟩
  · obtain ⟨_, proposals, ok, sound, _⟩ := f.generator.generate_spec wf fed
    refine ⟨proposals, ok, fun p mem => ?_⟩
    obtain ⟨_, _, edge, _, live, _⟩ := sound p mem
    exact ⟨edge, live⟩

namespace Engine

variable {e : Engine} {id : EdgeId} {edge : Edge}

/-! ### What the engine keeps -/

/-- Every number and every place that the engine keeps leads somewhere. -/
structure Resolves (e : Engine) : Prop where
  /-- A committed fact is live, and so are its nodes. -/
  facts : ∀ id edge, e.facts.edge? id = some edge → e.graph.edges.get? id = some edge ∧
    ∀ x ∈ edge.endpoints, ∃ node, e.graph.nodes.get? x.1 = some node
  /-- What a node lists is committed. -/
  incident : ∀ n, ∀ x ∈ e.facts.incidentTo n, ∃ edge, e.facts.edge? x.1 = some edge
  candidates : ∀ x ∈ e.agenda.toList, ∃ edge, e.graph.edges.get? x.edge = some edge
  slots : ∀ (id : EdgeId) (slot : Nat), e.agenda.slotOf[id]? = some slot → slot < e.agenda.heap.size
  nodeSlots : ∀ n, ∀ slot ∈ e.agenda.slotsOfNode.slotsAt n, slot < e.agenda.heap.size
  /-- A fact has the key arguments of every group constraint over its relation. -/
  keys : ∀ g, Policy.Part (.group g) e.decisions.toPolicy → ∀ id edge,
    e.graph.edges.get? id = some edge → edge.relation = g.relation →
      ∀ k ∈ g.keyArgs, ∃ n, edge.tail[k]? = some n

/-- Everything resolves in a coherent engine whose agenda agrees with its graph. -/
theorem Coherent.resolves (coherent : e.Coherent) (agrees : e.Agrees)
    (keyed : e.decisions.Keyed e.graph.schema) : e.Resolves := by
  refine ⟨fun id edge found => ⟨coherent.committed id edge found, fun x mem => ?_⟩,
    fun n x mem => coherent.facts.committed_of_incident mem, fun x mem => ?_, fun id slot at_ => ?_,
    fun n slot mem => ?_, fun g part id edge live same k mem => ?_⟩
  · obtain ⟨_, type, v, _, _, live⟩ := RuleGenerator.live_of_nodeAt? coherent.graph
      (coherent.committed id edge found) (Edge.mem_endpoints.mp mem)
    exact ⟨_, live⟩
  · exact coherent.pending x.edge (mem_pending_of_mem mem)
  · obtain ⟨x, at_, _⟩ := (coherent.agenda id slot).mp at_
    exact (Array.getElem?_eq_some_iff.mp at_).1
  · obtain ⟨x, at_, _⟩ := (agrees.agenda.valid.touching.mem_iff n slot).mp mem
    exact (Array.getElem?_eq_some_iff.mp at_).1
  · obtain ⟨R, isR, bound⟩ := keyed g part
    exact coherent.graph.exists_tail live (same ▸ isR) (bound k mem)

/-! ### Built engines -/

end Engine

/-- The group constraints that the operation brings are about relations of the engine that have
their key arguments. -/
def Operation.Keyed (e : Engine) : Operation → Prop
  | .setFallback policy => policy.Keyed e.graph.schema
  | .addPolicy _ policy => policy.Keyed e.graph.schema
  | _ => True

namespace Engine

variable {e : Engine} {id : EdgeId} {edge : Edge}

/-- The engines that operations make of a new one, if group constraints are made for their
relations. -/
inductive Built : Engine → Prop where
  | start (settings : Settings) (priority : Priority) : Built (.withPriority settings priority)
  | next {e : Engine} : Built e → (op : Operation) → op.Keyed e → Built (op.perform e)

theorem Built.reachable (built : Built e) : Reachable e := by
  induction built with
  | start settings priority => exact .start settings priority
  | next _ op _ ih => exact ih.next op

theorem Built.performAll {ops : List Operation} (built : Built e)
    (keyed : ∀ op ∈ ops, ∀ e, op.Keyed e) : Built (e.performAll ops) := by
  induction ops generalizing e with
  | nil => exact built
  | cons op rest ih =>
    obtain ⟨keyedFirst, keyedRest⟩ := List.forall_mem_cons.mp keyed
    rw [performAll_cons]
    exact ih (built.next op (keyedFirst e)) keyedRest

/-- Group constraints that are read are made for their relations. -/
theorem Built.addGroups (built : Built e) (descriptions : List String) :
    Built (e.addGroups descriptions).2 := by
  induction descriptions generalizing e with
  | nil => exact built
  | cons description rest ih =>
    rw [Engine.addGroups, addGroup]
    cases isRead : Group.read description e.graph.schema with
    | error failure => exact built
    | ok g =>
      have keyed : (Operation.addPolicy g.relation (.group g)).Keyed e := by
        intro g' part
        cases part
        exact Group.keyed_of_read isRead
      exact ih (built.next _ keyed)

/-- An operation that brings no policy keeps what the policies are, up to what they have
recorded. -/
theorem decisions_perform (e : Engine) {op : Operation}
    (fallback : ∀ policy, op ≠ .setFallback policy)
    (policy : ∀ relation policy, op ≠ .addPolicy relation policy) :
    (op.perform e).decisions.clear = e.decisions.clear := by
  cases op with
  | setFallback p => exact absurd rfl (fallback p)
  | addPolicy relation p => exact absurd rfl (policy relation p)
  | addRule rule scorer =>
    rw [Operation.perform, Engine.addRule]
    split <;> rfl
  | addCandidate id score =>
    rw [Operation.perform, Engine.addCandidate]
    split
    · rfl
    · split
      · rfl
      · split <;> rfl
  | commit id matching => exact clear_commitWith e id matching
  | step mode => exact clear_step e mode
  | setPriority priority => exact congrArg Dispatch.clear (Steady.reprioritize _ _).decisions
  | addGold id =>
    rw [Operation.perform, addGold]
    split <;> rfl
  | clearAgenda => exact e.decisions.clear_clear
  | clearDocument => exact e.decisions.clear_clear
  | _ => rfl

theorem Coherent.schema_perform (coherent : e.Coherent) (op : Operation) :
    e.graph.schema.Extends (op.perform e).graph.schema := by
  by_cases clears : op = .clearDocument
  · rw [clears]
    exact .refl _
  · exact (coherent.continues_perform clears).graph.schema

theorem Built.keyed (built : Built e) : e.decisions.Keyed e.graph.schema := by
  induction built with
  | start settings priority =>
    intro g part
    cases part with
    | relation mem => cases mem
    | fallback part => cases part
  | @next e built op keyedOp keyed =>
    have coherent := built.reachable.coherent
    have schema := coherent.schema_perform op
    cases op with
    | setFallback policy => exact keyed.setFallback keyedOp
    | addPolicy relation policy => exact keyed.add relation keyedOp
    | _ =>
      exact Policy.Keyed.mono schema
        (keyed.of_clear (decisions_perform e (by simp) (by simp)))

/-! ### Failures -/

/-- The failure reports that a committee, which is part of the policies, disagrees about a
candidate. -/
def Disagrees (e : Engine) (failure : EngineError) : Prop :=
  ∃ x ∈ e.agenda.toList, ∃ edge, e.graph.edges.get? x.edge = some edge ∧
    ∃ members cause, Policy.Part (.unanimous members) e.decisions.toPolicy ∧
      Policy.Disagree edge x.score.read.1 members cause ∧ failure = .decision cause

/-- A step with candidates left fails only when a committee disagrees. -/
theorem Coherent.step_error (coherent : e.Coherent) (left : e.agenda.isEmpty = false) {mode : Mode}
    {failure : EngineError} (failed : (e.step mode).1 = .error failure) : e.Disagrees failure := by
  obtain ⟨x, edge, asked, perm, live, _, _, takes⟩ := coherent.step_takes left mode
  generalize e.step mode = answer at takes failed
  cases takes with
  | @fails cause answer =>
    obtain rfl : .decision cause = failure := Except.error.inj failed
    have toPolicy : (e.decisions.toPolicy.decide edge x.score.read.1).1 = .error cause := by
      rw [Dispatch.toPolicy_decide]
      exact answer
    obtain ⟨members, part, disagree⟩ := Policy.decide_error toPolicy
    exact ⟨x, perm.mem_iff.mpr List.mem_cons_self, edge, live, members, cause, part, disagree, rfl⟩
  | refuses => cases failed
  | accepts => cases failed

/-- A run that fails has taken steps up to one that fails. -/
theorem runWithin_error {mode : Mode} {fuel : Nat} {limit : Option Nat} {failure : EngineError}
    (failed : (runWithin mode fuel limit e).ending = .failed failure) :
    ∃ n, let e' := e.performAll (.replicate n (.step mode))
      e'.agenda.isEmpty = false ∧ (e'.step mode).1 = .error failure := by
  have goes := goes mode fuel limit e
  generalize runWithin mode fuel limit e = r at goes failed
  induction goes with
  | @failed _ _ e _ _ left _ stepped =>
    obtain rfl := RunEnd.failed.inj failed
    exact ⟨0, left, congrArg Prod.fst stepped⟩
  | @step _ _ e _ _ _ _ _ stepped _ ih =>
    have performed : (Operation.step mode).perform e = _ := congrArg Prod.snd stepped
    obtain ⟨n, left, fails⟩ := ih failed
    refine ⟨n + 1, ?_⟩
    rw [List.replicate_succ, performAll_cons, performed]
    exact ⟨left, fails⟩
  | _ => cases failed

/-! ### Safety -/

/-- Everything that a built engine keeps resolves. Committing a live fact with matching succeeds,
and every call of a generator finds all that it looks up. A step with candidates left, and a run,
fail only when a committee disagrees that is part of the policies at that time. -/
theorem Built.safe (built : Built e) :
    e.Resolves ∧
      (∀ id edge, e.graph.edges.get? id = some edge →
        ∃ added, (e.commitWith id true).1 = .ok added) ∧
      (∀ op : Operation, ∀ f ∈ op.firings e, f.Finds) ∧
      (∀ mode failure, e.agenda.isEmpty = false → (e.step mode).1 = .error failure →
        e.Disagrees failure) ∧
      ∀ mode fuel limit failure, (runWithin mode fuel limit e).ending = .failed failure →
        ∃ n, (e.performAll (.replicate n (.step mode))).Disagrees failure := by
  have coherent := built.reachable.coherent
  refine ⟨coherent.resolves built.reachable.agrees built.keyed, fun id edge live => ?_,
    fun op f called => ?_, fun mode failure left failed => ?_,
    fun mode fuel limit failure failed => ?_⟩
  · exact coherent.commitWith_ok live
  · obtain ⟨edge, fires⟩ := coherent.fires_of_mem called
    obtain ⟨wf, fed, _⟩ := fires.called f called
    exact Firing.finds wf fed
  · exact coherent.step_error left failed
  · obtain ⟨n, left, fails⟩ := runWithin_error failed
    exact ⟨n, (coherent.performAll _).step_error left fails⟩

/-- Two constraints over the paths from a point. The first accepts the first candidate that it sees,
the second none after a committed fact. -/
def committee : Policy :=
  .unanimous [.group ⟨.exactlyOne, ⟨1⟩, [0], [], "EXACTLY_ONE:path:[0]"⟩,
    .group ⟨.atMostOne, ⟨1⟩, [0], [], "AT_MOST_ONE:path:[0]"⟩]

/-- A path from 1 to 2 is committed, and the one from 1 to 3 is pending. -/
def divided : Engine :=
  (chained.setFallback committee).performAll [.makeEdgeFromValues ⟨1⟩ [.int 1, .int 2] .temporary,
    .commit ⟨.temporary, 2⟩ false, .commit ⟨.temporary, 1⟩ true]

theorem keyed_committee : committee.Keyed chained.graph.schema := by
  obtain ⟨R, isPath, arity⟩ :
      ∃ R, chained.graph.schema.relation? ⟨1⟩ = some R ∧ R.arity = 2 := by
    refine ⟨(chained.graph.schema.relation? ⟨1⟩).get (by decide +kernel), by simp, ?_⟩
    decide +kernel
  intro g part
  cases part with
  | member mem part =>
    rcases List.mem_pair.mp mem with rfl | rfl <;> cases part <;>
      exact ⟨R, isPath, by simp [arity]⟩

theorem built_divided : Built divided := by
  have chaining : Built chained :=
    (((Built.start .usual .byScore).performAll (by simp [Operation.Keyed])).next
      (.addRule chainRule (.constant 1.0)) trivial).performAll (by simp [links, Operation.Keyed])
  exact (chaining.next (.setFallback committee) keyed_committee).performAll
    (by simp [Operation.Keyed])

/-- The members of the committee disagree about the pending path, and both the step and the run fail
with that. -/
theorem safe_divided : Built divided ∧ divided.agenda.isEmpty = false ∧
    divided.Resolves ∧
    (∀ id edge, divided.graph.edges.get? id = some edge →
      ∃ added, (divided.commitWith id true).1 = .ok added) ∧
    (∀ op : Operation, ∀ f ∈ op.firings divided, f.Finds) ∧
    (∃ failure, (divided.step .decoder).1 = .error failure ∧ divided.Disagrees failure) ∧
    ∃ failure, (runWithin .decoder 1 none divided).ending = .failed failure ∧
      ∃ n, (divided.performAll (.replicate n (.step .decoder))).Disagrees failure := by
  have left : divided.agenda.isEmpty = false := by decide +kernel
  have failed : (divided.step .decoder).1.isOk = false := by decide +kernel
  obtain ⟨resolves, commits, finds, steps, runs⟩ := Built.safe built_divided
  cases answer : (divided.step .decoder).1 with
  | ok s => simp [answer, Except.isOk, Except.toBool] at failed
  | error failure =>
    have ended : (runWithin .decoder 1 none divided).ending = .failed failure := by
      rw [runWithin, if_neg (by simp [left]), if_neg (by simp)]
      generalize divided.step .decoder = stepped at answer
      obtain ⟨result, e'⟩ := stepped
      obtain rfl : result = .error failure := answer
      rfl
    exact ⟨built_divided, left, resolves, commits, finds,
      ⟨failure, rfl, steps _ _ left answer⟩, ⟨failure, ended, runs _ _ _ _ ended⟩⟩

end Engine

end ScoredChaining
