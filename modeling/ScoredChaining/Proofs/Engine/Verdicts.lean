import ScoredChaining.Proofs.Agenda.Valid
import ScoredChaining.Proofs.Engine.Recording
import ScoredChaining.Proofs.Engine.Steps

/-!
What comes of a candidate.

* `Engine.asked`: the candidate is off the agenda, and the policies have been asked about it.
* `Engine.Verdict`: from there a step fails with the policies, rejects the candidate, commits it, or
  finds it committed already.
* `Engine.Coherent.step_verdict`: every step that takes a candidate ends in one of these ways.
* `Engine.Admits`, `Engine.Refuses`: what a step of the policies comes to if they accept the
  candidate, and if they refuse it.
-/

namespace ScoredChaining.Engine

variable {Custom : Type} [Decider Custom]

variable {e : Engine Custom} {c : Candidate} {edge : Edge} {mode : Mode}

/-- The engine after it has taken a candidate off the agenda and asked the policies about it. -/
def asked (e : Engine Custom) (c : Candidate) (edge : Edge) : Engine Custom :=
  { e with
    agenda := e.agenda.pop.2
    decisions := (e.decisions.decide edge c.score.read.1).2
    stats := { e.stats with pops := e.stats.pops + 1 } }

/-- What a step says of a candidate. -/
def report (e : Engine Custom) (c : Candidate) (edge : Edge) (predicted : Option Bool)
    (outcome : Outcome) : Step :=
  ⟨c.edge, c.score.read.2, e.labels.label edge, predicted, outcome⟩

/-- How a step ends that takes the candidate `c`, whose content is `edge`. -/
inductive Verdict (e : Engine Custom) (mode : Mode) (c : Candidate) (edge : Edge) :
    Except EngineError Step × Engine Custom → Prop where
  | fails {failure : DecisionError}
      (answer : (e.decisions.decide edge c.score.read.1).1 = .error failure) :
      Verdict e mode c edge (.error (.decision failure), e.asked c edge)
  | rejects {predicted : Option Bool}
      (answer : (e.decisions.decide edge c.score.read.1).1 = .ok predicted)
      (refused : e.decided mode edge predicted ≠ some true) :
      Verdict e mode c edge (.ok (e.report c edge predicted .rejected),
        (e.asked c edge).reject (e.decided mode edge predicted).isSome)
  | commits {predicted : Option Bool} {after : Engine Custom}
      (answer : (e.decisions.decide edge c.score.read.1).1 = .ok predicted)
      (accepted : e.decided mode edge predicted = some true)
      (new : e.facts.contains c.edge = false)
      (committed : (e.asked c edge).commitWith c.edge true = (.ok true, after)) :
      Verdict e mode c edge (.ok (e.report c edge predicted .committed),
        { after with stats := { after.stats with commits := after.stats.commits + 1 } })
  | knows {predicted : Option Bool}
      (answer : (e.decisions.decide edge c.score.read.1).1 = .ok predicted)
      (accepted : e.decided mode edge predicted = some true)
      (known : e.facts.contains c.edge = true) :
      Verdict e mode c edge (.ok (e.report c edge predicted .alreadyCommitted), e.asked c edge)

/-- The candidate that a step takes is the one that comes off the agenda. -/
theorem pop_of_taken (taken : e.taken? = some (c, edge)) : e.agenda.pop.1 = .ok c := by
  rw [taken?] at taken
  split at taken
  · cases taken
  · rename_i popped
    obtain ⟨_, _, same⟩ := Option.map_eq_some_iff.mp taken
    cases same
    exact popped

/-- The candidate that a step takes is not pending any more, and no other is lost. -/
theorem pending_of_taken (linked : e.agenda.Linked) (taken : e.taken? = some (c, edge)) :
    e.agenda.pending.Perm (c.edge :: e.agenda.pop.2.pending) := by
  have popped := pop_of_taken taken
  cases empty : e.agenda.isEmpty with
  | true =>
    rw [Agenda.pop_of_isEmpty empty] at popped
    cases popped
  | false =>
    obtain ⟨x, _, ok, _, perm⟩ := linked.pop empty
    obtain rfl := Except.ok.inj (ok.symm.trans popped)
    exact perm.map Entry.edge

theorem mem_pending_of_taken (linked : e.agenda.Linked) (taken : e.taken? = some (c, edge)) :
    c.edge ∈ e.agenda.pending :=
  (pending_of_taken linked taken).mem_iff.mpr List.mem_cons_self

/-- The candidate that a step takes was pending once. -/
theorem not_pending_asked (linked : e.agenda.Linked) (taken : e.taken? = some (c, edge)) :
    c.edge ∉ (e.asked c edge).agenda.pending := by
  have perm := pending_of_taken linked taken
  have nodup := perm.nodup_iff.mp linked.nodup_pending
  exact (List.nodup_cons.mp nodup).1

/-- A step takes a candidate as long as there are any. -/
theorem Coherent.exists_taken_of_busy (coherent : e.Coherent) (busy : e.agenda.isEmpty = false) :
    ∃ c edge, e.taken? = some (c, edge) := by
  obtain ⟨x, _, popped, _⟩ := coherent.agenda.pop busy
  exact ⟨Agenda.candidate x, coherent.exists_taken popped⟩

/-- A step that succeeds takes a candidate. -/
theorem Coherent.taken_of_ok (coherent : e.Coherent) {s : Step} {e' : Engine Custom}
    (ok : e.step mode = (.ok s, e')) : ∃ c edge, e.taken? = some (c, edge) := by
  rw [Engine.step] at ok
  split at ok
  · cases ok
  · rename_i c agenda popped
    exact ⟨c, coherent.exists_taken (by rw [popped])⟩

theorem Coherent.asked (coherent : e.Coherent) (c : Candidate) (edge : Edge) :
    (e.asked c edge).Coherent := by
  obtain ⟨linked, subset, _⟩ := pop_pending coherent.agenda
  exact coherent.of_settles ⟨rfl, rfl, rfl, rfl, linked, subset, rfl⟩

/-- What is done about a candidate once the policies have an answer. -/
theorem Coherent.conclude_verdict (coherent : e.Coherent)
    (live : e.graph.edges.get? c.edge = some edge) {predicted : Option Bool}
    (answer : (e.decisions.decide edge c.score.read.1).1 = .ok predicted) (mode : Mode) :
    ∃ outcome after, (e.asked c edge).conclude c.edge (e.decided mode edge predicted) =
        (.ok outcome, after) ∧
      Verdict e mode c edge (.ok (e.report c edge predicted outcome), after) := by
  cases decision : e.decided mode edge predicted with
  | none =>
    refine ⟨.rejected, _, rfl, ?_⟩
    have refused : e.decided mode edge predicted ≠ some true := by simp [decision]
    simpa [decision] using Verdict.rejects answer refused
  | some accepted =>
    cases accepted with
    | false =>
      refine ⟨.rejected, _, rfl, ?_⟩
      have refused : e.decided mode edge predicted ≠ some true := by simp [decision]
      simpa [decision] using Verdict.rejects answer refused
    | true =>
      have live : (e.asked c edge).graph.edges.get? c.edge = some edge := live
      cases known : e.facts.contains c.edge with
      | true =>
        refine ⟨.alreadyCommitted, e.asked c edge, ?_, .knows answer decision known⟩
        rw [conclude, commit, (commitWith_of_contains live known true).1]
      | false =>
        have ok := ((coherent.asked c edge).commit_effects live known).1
        generalize committed : (e.asked c edge).commitWith c.edge true = result at ok
        obtain ⟨result, after⟩ := result
        obtain rfl : result = .ok true := ok
        refine ⟨.committed, _, ?_, .commits answer decision known committed⟩
        rw [conclude, commit, committed]

/-- Every step that takes a candidate fails with the policies, rejects the candidate, commits it or
finds it committed. -/
theorem Coherent.step_verdict (coherent : e.Coherent) (taken : e.taken? = some (c, edge))
    (mode : Mode) : Verdict e mode c edge (e.step mode) := by
  have live := live_of_taken taken
  have popped : e.agenda.pop = (.ok c, e.agenda.pop.2) := Prod.ext (pop_of_taken taken) rfl
  have considered : e.step mode =
      { e with
        agenda := e.agenda.pop.2
        stats := { e.stats with pops := e.stats.pops + 1 } }.consider mode c := by
    rw [Engine.step, popped]
  rw [considered]
  simp only [consider, Graph.edge_eq_ok_iff.mpr live]
  generalize asking : e.decisions.decide edge c.score.read.1 = result
  obtain ⟨failure | predicted, decisions⟩ := result
  · have failed : Verdict e mode c edge (.error (.decision failure), e.asked c edge) :=
      .fails (by rw [asking])
    rwa [Engine.asked, asking] at failed
  · obtain ⟨outcome, after, concluded, verdict⟩ :=
      coherent.conclude_verdict live (by rw [asking]) mode
    rw [Engine.asked, asking] at concluded
    cases mode <;> simp only [decided] at concluded <;> simp only [concluded] <;> exact verdict

/-- The fact of a candidate is entered by its commit. -/
theorem facts_of_commits {after : Engine Custom} (taken : e.taken? = some (c, edge))
    (new : e.facts.contains c.edge = false)
    (committed : (e.asked c edge).commitWith c.edge true = (.ok true, after)) :
    after.facts = (e.facts.add c.edge edge).2 := by
  have live : (e.asked c edge).graph.edges.get? c.edge = some edge := live_of_taken (e := e) taken
  have adds := commitWith_adds live new true
  rw [committed] at adds
  exact adds.facts

/-! ### Steps of the policies -/

/-- The next step of the policies accepts the candidate, and its fact is committed after it. -/
def Admits (e : Engine Custom) (c : Candidate) (edge : Edge) : Prop :=
  ∃ s e', e.step .decoder = (.ok s, e') ∧ s.edge = c.edge ∧ s.predicted = some true ∧
    s.outcome ≠ .rejected ∧ e'.facts.edge? c.edge = some edge

/-- The next step of the policies refuses the candidate, and commits nothing. -/
def Refuses (e : Engine Custom) (c : Candidate) : Prop :=
  ∃ s e', e.step .decoder = (.ok s, e') ∧ s.edge = c.edge ∧ s.predicted = some false ∧
    s.outcome = .rejected ∧ e'.facts = e.facts

theorem Coherent.admits (coherent : e.Coherent) (taken : e.taken? = some (c, edge))
    (accepts : (e.decisions.decide edge c.score.read.1).1 = .ok (some true)) :
    e.Admits c edge := by
  have verdict := coherent.step_verdict taken .decoder
  generalize stepped : e.step .decoder = result at verdict
  cases verdict with
  | fails answer => simp [accepts] at answer
  | rejects answer refused =>
    obtain rfl := Except.ok.inj (accepts.symm.trans answer)
    simp [decided] at refused
  | commits answer accepted new committed =>
    obtain rfl := Except.ok.inj (accepts.symm.trans answer)
    refine ⟨_, _, stepped, rfl, rfl, by simp [report], ?_⟩
    rw [facts_of_commits taken new committed, FactBase.edge?_add new, if_pos rfl]
  | knows answer accepted known =>
    obtain rfl := Except.ok.inj (accepts.symm.trans answer)
    refine ⟨_, _, stepped, rfl, rfl, by simp [report], ?_⟩
    obtain ⟨_, found⟩ := FactBase.contains_iff.mp known
    rw [← live_of_taken taken, coherent.committed _ _ found]
    exact found

theorem Coherent.refuses (coherent : e.Coherent) (taken : e.taken? = some (c, edge))
    (refuses : (e.decisions.decide edge c.score.read.1).1 = .ok (some false)) :
    e.Refuses c := by
  have verdict := coherent.step_verdict taken .decoder
  generalize stepped : e.step .decoder = result at verdict
  cases verdict with
  | fails answer => simp [refuses] at answer
  | rejects answer refused =>
    obtain rfl := Except.ok.inj (refuses.symm.trans answer)
    exact ⟨_, _, stepped, rfl, rfl, rfl, rfl⟩
  | commits answer accepted new committed =>
    obtain rfl := Except.ok.inj (refuses.symm.trans answer)
    simp [decided] at accepted
  | knows answer accepted known =>
    obtain rfl := Except.ok.inj (refuses.symm.trans answer)
    simp [decided] at accepted

end ScoredChaining.Engine
