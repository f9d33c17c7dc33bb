import ScoredChaining.Proofs.Decision.Policy
import ScoredChaining.Proofs.Engine.History

/-!
What operations do to the committed facts and to the policies, for any engine and also when they
fail.

* `Engine.Steady`: both stay as they are. Firing a fact and changing priorities is steady.
* `Engine.commitWith_adds`: a commit enters one new fact and lets the policies take note of it, or
  is steady.
* `Engine.step_settles`: a step asks the policies about the candidate that it takes, and enters it
  if they accept it and it is new (`Engine.Settled`).
* `Engine.clear_commitWith`, `Engine.clear_step`: nothing of either remains when the policies are
  cleared.
* `Engine.effect`: what each operation does that forgets nothing.
* `Engine.runWithin_eq_performAll`: a run is one step after the other.
-/

namespace ScoredChaining

variable {Custom : Type} [Decider Custom]

namespace Engine

variable {e e' e'' : Engine Custom} {id : EdgeId} {edge : Edge}

/-! ### Effects apart from commits -/

/-- The committed facts and the policies are the same. -/
structure Steady (e e' : Engine Custom) : Prop where
  facts : e'.facts = e.facts
  decisions : e'.decisions = e.decisions

namespace Steady

theorem refl (e : Engine Custom) : Steady e e :=
  ⟨rfl, rfl⟩

theorem trans (first : Steady e e') (second : Steady e' e'') : Steady e e'' :=
  ⟨second.facts.trans first.facts, second.decisions.trans first.decisions⟩

theorem addCandidate (e : Engine Custom) (id : EdgeId) (score : Score) :
    Steady e (e.addCandidate id score).2 := by
  unfold Engine.addCandidate
  split
  · exact ⟨rfl, rfl⟩
  · split
    · exact .refl e
    · split <;> exact ⟨rfl, rfl⟩

theorem propose (proposals : List Proposal) (e : Engine Custom) :
    Steady e (Engine.propose proposals e).2 := by
  induction proposals generalizing e with
  | nil => exact .refl e
  | cons p rest ih =>
    let counted : Engine Custom :=
      { e with stats := { e.stats with generated := e.stats.generated + 1 } }
    have added : Steady e (counted.addCandidate p.edge p.score).2 :=
      have same := addCandidate counted p.edge p.score
      ⟨same.facts, same.decisions⟩
    rw [Engine.propose]
    simp only
    generalize counted.addCandidate p.edge p.score = answer at added
    obtain ⟨_ | _, e'⟩ := answer
    · exact added
    · exact added.trans (ih e')

theorem runGenerators (bindings : List Binding) (generators : List RuleGenerator)
    (e : Engine Custom) : Steady e (Engine.runGenerators bindings generators e).2 := by
  induction generators generalizing e with
  | nil => exact .refl e
  | cons r rest ih =>
    rw [Engine.runGenerators]
    simp only
    split
    · exact ⟨rfl, rfl⟩
    · rename_i proposals graph _
      let counted : Engine Custom :=
        { e with graph, stats := { e.stats with firings := e.stats.firings + 1 } }
      have proposed : Steady e (Engine.propose proposals counted).2 :=
        have same := propose proposals counted
        ⟨same.facts, same.decisions⟩
      generalize Engine.propose proposals counted = answer at proposed
      obtain ⟨_ | _, e'⟩ := answer
      · exact proposed
      · exact proposed.trans (ih e')

theorem runFactors (bindings : List Binding) (factors : List Factor) (e : Engine Custom) :
    Steady e (Engine.runFactors bindings factors e).2 := by
  induction factors generalizing e with
  | nil => exact .refl e
  | cons f rest ih =>
    rw [Engine.runFactors]
    split
    · exact ⟨rfl, rfl⟩
    · rename_i agenda _
      have same := ih { e with agenda }
      exact ⟨same.facts, same.decisions⟩

theorem runMatch (m : Match RuleGenerator Factor) (e : Engine Custom) :
    Steady e (Engine.runMatch m e).2 := by
  have asked := runGenerators m.bindings m.actions.generators e
  rw [Engine.runMatch]
  generalize Engine.runGenerators m.bindings m.actions.generators e = answer at asked
  obtain ⟨_ | _, e'⟩ := answer
  · exact asked
  · exact asked.trans (runFactors m.bindings m.actions.factors e')

theorem runMatches (found : List (Match RuleGenerator Factor)) (e : Engine Custom) :
    Steady e (Engine.runMatches found e).2 := by
  induction found generalizing e with
  | nil => exact .refl e
  | cons m rest ih =>
    have first := runMatch m e
    rw [Engine.runMatches]
    generalize Engine.runMatch m e = answer at first
    obtain ⟨_ | _, e'⟩ := answer
    · exact first
    · exact first.trans (ih e')

/-- Matching a committed fact is steady, whatever it triggers. -/
theorem fire (e : Engine Custom) (id : EdgeId) : Steady e (e.fire id).2 := by
  rw [Engine.fire]
  split
  · exact .refl e
  · rename_i found _ _
    have same := runMatches found
      { e with stats := { e.stats with matched := e.stats.matched + found.length } }
    exact ⟨same.facts, same.decisions⟩

theorem reprioritize (e : Engine Custom) (ids : List EdgeId) : Steady e (e.reprioritize ids).2 := by
  induction ids generalizing e with
  | nil => exact .refl e
  | cons id rest ih =>
    rw [Engine.reprioritize]
    split
    · exact .refl e
    · split
      · exact ⟨rfl, rfl⟩
      · rename_i agenda _
        have same := ih { e with agenda }
        exact ⟨same.facts, same.decisions⟩

end Steady

/-! ### Commits -/

/-- A new fact is entered, and the policies take note of it. -/
structure Adds (e : Engine Custom) (id : EdgeId) (edge : Edge) (e' : Engine Custom) : Prop where
  live : e.graph.edges.get? id = some edge
  new : e.facts.contains id = false
  facts : e'.facts = (e.facts.add id edge).2
  decisions : e'.decisions = e.decisions.committed edge

/-- A commit enters the fact that it is about, if it is live and new. -/
theorem commitWith_adds (live : e.graph.edges.get? id = some edge)
    (new : e.facts.contains id = false) (matching : Bool) :
    Adds e id edge (e.commitWith id matching).2 := by
  have recorded : Steady (e.record id edge).2 (e.commitWith id matching).2 := by
    rw [commitWith, Graph.edge_eq_ok_iff.mpr live]
    simp only [record_of_new new]
    cases matching with
    | false => exact .refl _
    | true =>
      simp only [if_true]
      have fired := Steady.fire { e with
        facts := (e.facts.add id edge).2, decisions := e.decisions.committed edge } id
      generalize Engine.fire (_ : Engine Custom) id = answer at fired
      obtain ⟨_ | _, e'⟩ := answer <;> exact fired
  rw [record_of_new new] at recorded
  exact ⟨live, new, recorded.facts, recorded.decisions⟩

theorem commitWith_cases (e : Engine Custom) (id : EdgeId) (matching : Bool) :
    Steady e (e.commitWith id matching).2 ∨
      ∃ edge, Adds e id edge (e.commitWith id matching).2 := by
  cases live : e.graph.edges.get? id with
  | none =>
    rw [(commitWith_of_dead live matching).1]
    exact .inl (.refl e)
  | some edge =>
    cases new : e.facts.contains id with
    | true =>
      rw [(commitWith_of_contains live new matching).1]
      exact .inl (.refl e)
    | false => exact .inr ⟨edge, commitWith_adds live new matching⟩

/-! ### Steps -/

/-- The candidate that the next step takes off the agenda, with its content. -/
def taken? (e : Engine Custom) : Option (Candidate × Edge) :=
  match e.agenda.pop.1 with
  | .error _ => none
  | .ok c => (e.graph.edges.get? c.edge).map fun edge => (c, edge)

theorem live_of_taken {c : Candidate} (taken : e.taken? = some (c, edge)) :
    e.graph.edges.get? c.edge = some edge := by
  rw [taken?] at taken
  split at taken
  · cases taken
  · obtain ⟨edge, live, same⟩ := Option.map_eq_some_iff.mp taken
    cases same
    exact live

/-- Every candidate that comes off the agenda has a content. -/
theorem Coherent.exists_taken (coherent : e.Coherent) {c : Candidate}
    (popped : e.agenda.pop.1 = .ok c) : ∃ edge, e.taken? = some (c, edge) := by
  obtain ⟨_, _, mem⟩ := pop_pending coherent.agenda
  obtain ⟨edge, live⟩ := coherent.pending c.edge (mem c popped)
  exact ⟨edge, by simp [taken?, popped, live]⟩

/-- The policies' answer about a candidate leads to a commit. -/
def Accepted (e : Engine Custom) (mode : Mode) (c : Candidate) (edge : Edge) : Prop :=
  ∃ predicted, (e.decisions.decide edge c.score.read.1).1 = .ok predicted ∧
    e.decided mode edge predicted = some true

/-- What becomes of a candidate: the policies have been asked, and an accepted fact that is new is
entered. -/
inductive Settled (e : Engine Custom) (mode : Mode) (c : Candidate) (edge : Edge)
    (e' : Engine Custom) : Prop where
  | enters (accepted : e.Accepted mode c edge) (new : e.facts.contains c.edge = false)
      (facts : e'.facts = (e.facts.add c.edge edge).2)
      (decisions : e'.decisions =
        (e.decisions.decide edge c.score.read.1).2.committed edge)
  | keeps (known : e.Accepted mode c edge → e.facts.contains c.edge = true)
      (facts : e'.facts = e.facts)
      (decisions : e'.decisions = (e.decisions.decide edge c.score.read.1).2)

/-- A step that takes no candidate is steady. -/
theorem step_of_not_taken (none : e.taken? = none) (mode : Mode) : Steady e (e.step mode).2 := by
  rw [taken?] at none
  rw [step]
  generalize e.agenda.pop = answer at none
  obtain ⟨_ | c, agenda⟩ := answer
  · exact ⟨rfl, rfl⟩
  · have dead : e.graph.edges.get? c.edge = .none := by simpa using none
    simp only [snd_consider, Graph.edge, dead]
    exact ⟨rfl, rfl⟩

/-- A step asks the policies about the candidate that it takes. -/
theorem step_settles {c : Candidate} (taken : e.taken? = some (c, edge)) (mode : Mode) :
    Settled e mode c edge (e.step mode).2 := by
  rw [taken?] at taken
  rw [step]
  generalize e.agenda.pop = answer at taken
  obtain ⟨_ | c, agenda⟩ := answer
  · cases taken
  · obtain ⟨edge, live, same⟩ := Option.map_eq_some_iff.mp taken
    cases same
    simp only [snd_consider, Graph.edge_eq_ok_iff.mpr live]
    generalize answers : e.decisions.decide edge c.score.read.1 = answer
    obtain ⟨failure | predicted, decisions⟩ := answer
    · refine .keeps (fun accepted => ?_) rfl (by rw [answers])
      obtain ⟨_, impossible, _⟩ := accepted
      rw [answers] at impossible
      cases impossible
    · let asked : Engine Custom :=
        { e with agenda, decisions, stats := { e.stats with pops := e.stats.pops + 1 } }
      have accepted_iff : e.Accepted mode c edge ↔ e.decided mode edge predicted = some true := by
        simp [Accepted, answers]
      obtain ⟨stats, concluded, _⟩ := asked.conclude_cases c.edge (e.decided mode edge predicted)
      change Settled e mode c edge (asked.conclude c.edge (e.decided mode edge predicted)).2
      rw [concluded]
      by_cases yes : e.decided mode edge predicted = some true
      · rw [if_pos yes]
        cases new : e.facts.contains c.edge with
        | true =>
          rw [commit, (commitWith_of_contains (e := asked) live new true).1]
          exact .keeps (fun _ => new) rfl (by rw [answers])
        | false =>
          have adds := commitWith_adds (e := asked) live new true
          refine .enters (accepted_iff.mpr yes) new adds.facts ?_
          rw [answers]
          exact adds.decisions
      · rw [if_neg yes]
        exact .keeps (fun accepted => absurd (accepted_iff.mp accepted) yes) rfl (by rw [answers])

/-! ### Policies that are cleared

No policy is of a custom kind here, since such a policy may keep what it likes. -/

/-- Nothing remains of a commit when the policies are cleared. -/
theorem clear_commitWith (e : Engine) (id : EdgeId) (matching : Bool) :
    (e.commitWith id matching).2.decisions.clear = e.decisions.clear := by
  rcases commitWith_cases e id matching with steady | ⟨edge, adds⟩
  · rw [steady.decisions]
  · rw [adds.decisions, Dispatch.clear_committed]

/-- Nothing remains of a step when the policies are cleared. -/
theorem clear_step (e : Engine) (mode : Mode) :
    (e.step mode).2.decisions.clear = e.decisions.clear := by
  cases taken : e.taken? with
  | none => rw [(step_of_not_taken taken mode).decisions]
  | some x =>
    cases step_settles taken mode with
    | enters _ _ _ decisions => rw [decisions, Dispatch.clear_committed, Dispatch.clear_decide]
    | keeps _ _ decisions => rw [decisions, Dispatch.clear_decide]

/-! ### Operations -/

end Engine

/-- The operation forgets what the policies have recorded. -/
def Operation.Forgets : Operation Custom → Prop
  | .clearAgenda | .clearDocument => True
  | _ => False

instance : DecidablePred (@Operation.Forgets Custom)
  | .clearAgenda | .clearDocument => instDecidableTrue
  | .internType .. | .declare .. | .internNode .. | .lookupNode .. | .makeEdge ..
  | .makeEdgeFromValues .. | .addRule .. | .addFactor .. | .setFallback _ | .addPolicy ..
  | .addCandidate .. | .commit .. | .step _ | .setPriority _ | .addGold _ => instDecidableFalse

/-- The candidate that the operation takes off the agenda, with its content. -/
def Operation.taken? (e : Engine Custom) : Operation Custom → Option (Candidate × Edge)
  | .step _ => e.taken?
  | _ => none

namespace Engine

variable {e e' e'' : Engine Custom} {id : EdgeId} {edge : Edge}

/-- What an operation that forgets nothing does to the facts and the policies. -/
inductive Effect (e : Engine Custom) (op : Operation Custom) : Prop where
  | steady (idle : op.taken? e = none) (steady : Steady e (op.perform e))
  | fallback (policy : Policy Custom) (isOp : op = .setFallback policy)
  | policy (relation : RelationId) (policy : Policy Custom) (isOp : op = .addPolicy relation policy)
  | adds (id : EdgeId) (edge : Edge) (matching : Bool) (isOp : op = .commit id matching)
      (adds : Adds e id edge (op.perform e))
  | settles (mode : Mode) (c : Candidate) (edge : Edge) (isOp : op = .step mode)
      (taken : op.taken? e = some (c, edge)) (settled : Settled e mode c edge (op.perform e))

theorem effect (e : Engine Custom) {op : Operation Custom} (keeps : ¬ op.Forgets) :
    Effect e op := by
  cases op with
  | setFallback policy => exact .fallback policy rfl
  | addPolicy relation policy => exact .policy relation policy rfl
  | addRule rule scorer =>
    refine .steady rfl ?_
    rw [Operation.perform, addRule]
    split <;> exact ⟨rfl, rfl⟩
  | addCandidate id score => exact .steady rfl (.addCandidate e id score)
  | commit id matching =>
    rcases commitWith_cases e id matching with steady | ⟨edge, adds⟩
    · exact .steady rfl steady
    · exact .adds id edge matching rfl adds
  | step mode =>
    cases taken : e.taken? with
    | none => exact .steady taken (step_of_not_taken taken mode)
    | some x => exact .settles mode x.1 x.2 rfl taken (step_settles taken mode)
  | setPriority priority =>
    have same := Steady.reprioritize { e with priority } (e.agenda.toList.map Entry.edge)
    exact .steady rfl ⟨same.facts, same.decisions⟩
  | addGold id =>
    refine .steady rfl ?_
    rw [Operation.perform, addGold]
    split <;> exact ⟨rfl, rfl⟩
  | clearAgenda => exact absurd trivial keeps
  | clearDocument => exact absurd trivial keeps
  | _ => exact .steady rfl ⟨rfl, rfl⟩

/-- A run is one step after the other. -/
theorem runWithin_eq_performAll (mode : Mode) (fuel : Nat) (limit : Option Nat)
    (e : Engine Custom) :
    ∃ n, (runWithin mode fuel limit e).engine = e.performAll (.replicate n (.step mode)) := by
  have goes := goes mode fuel limit e
  generalize runWithin mode fuel limit e = r at goes
  induction goes with
  | @failed _ _ e _ _ _ _ stepped =>
    have performed : (e.step mode).2 = _ := congrArg Prod.snd stepped
    exact ⟨1, performed.symm⟩
  | @step _ _ e _ _ _ _ _ stepped _ ih =>
    have performed : (Operation.step mode).perform e = _ := congrArg Prod.snd stepped
    obtain ⟨n, same⟩ := ih
    refine ⟨n + 1, ?_⟩
    rw [List.replicate_succ, performAll_cons, performed]
    exact same
  | _ => exact ⟨0, rfl⟩

end Engine

end ScoredChaining
