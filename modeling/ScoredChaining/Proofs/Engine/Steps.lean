import ScoredChaining.Proofs.Engine.History

/-!
Steps of an engine with candidates left.

* `Engine.Works`: what commits and steps leave alone.
* `Engine.Coherent.step_takes`: a step takes a candidate off the agenda and asks the policies. Then
  it fails with them, refuses the candidate or commits it (`Engine.Takes`).
* `Engine.Coherent.factorsAt_performAll`: which factors an engine has after operations.
-/

namespace ScoredChaining

variable {Custom : Type} [Decider Custom]

/-- The factors that an operation attaches at the end of a path. -/
def Operation.attaches (path : List Key) : Operation Custom → List Factor
  | .addFactor relation factor => if path = [.relation relation .head] then [factor] else []
  | _ => []

omit [Decider Custom] in
theorem Operation.mem_attaches_iff {op : Operation Custom} {path : List Key} {f : Factor} :
    f ∈ op.attaches path ↔
      ∃ relation, op = .addFactor relation f ∧ path = [.relation relation .head] := by
  cases op with
  | addFactor relation factor =>
    rw [attaches, List.mem_ite_nil_right, List.mem_singleton]
    constructor
    · rintro ⟨along, rfl⟩
      exact ⟨relation, rfl, along⟩
    · rintro ⟨_, same, along⟩
      cases same
      exact ⟨along, rfl⟩
  | _ => simp [attaches]

namespace Engine

variable {e e' asked : Engine Custom} {id : EdgeId} {edge : Edge}

/-! ### What stays -/

/-- Commits and steps change the graph, the facts, the agenda and the counts, and what the policies
have recorded. -/
structure Works (e e' : Engine Custom) : Prop where
  others : e' = { e with
    graph := e'.graph
    facts := e'.facts
    agenda := e'.agenda
    decisions := e'.decisions
    stats := e'.stats }

namespace Works

variable {e'' : Engine Custom}

theorem refl (e : Engine Custom) : Works e e :=
  ⟨rfl⟩

theorem trans (first : Works e e') (second : Works e' e'') : Works e e'' :=
  ⟨by rw [second.others, first.others]⟩

theorem of_frame (frame : Frame e e') : Works e e' :=
  ⟨by rw [frame.others]⟩

theorem rules (works : Works e e') : e'.rules = e.rules := by rw [works.others]

theorem trie (works : Works e e') : e'.trie = e.trie := by rw [works.others]

theorem record (e : Engine Custom) (id : EdgeId) (edge : Edge) : Works e (e.record id edge).2 := by
  rw [Engine.record]
  split
  · exact .refl e
  · exact ⟨rfl⟩

end Works

theorem Coherent.works_commitWith (coherent : e.Coherent) (id : EdgeId) (matching : Bool) :
    Works e (e.commitWith id matching).2 := by
  cases live : e.graph.edges.get? id with
  | none =>
    rw [(commitWith_of_dead live matching).1]
    exact .refl e
  | some edge =>
    cases known : e.facts.contains id with
    | true =>
      rw [(commitWith_of_contains live known matching).1]
      exact .refl e
    | false =>
      have recorded := Works.record e id edge
      cases matching with
      | true => exact recorded.trans (.of_frame (coherent.commit_effects live known).2.1.frame)
      | false => rwa [(commitWith_quietly live known).1]

/-- Committing a live fact with matching succeeds. -/
theorem Coherent.commitWith_ok (coherent : e.Coherent)
    (live : e.graph.edges.get? id = some edge) :
    ∃ added, (e.commitWith id true).1 = .ok added := by
  cases known : e.facts.contains id with
  | true => exact ⟨false, by rw [(commitWith_of_contains live known true).1]⟩
  | false => exact ⟨true, (coherent.commit_effects live known).1⟩

/-! ### Steps -/

/-- Without candidates a step changes nothing. -/
theorem step_of_isEmpty (empty : e.agenda.isEmpty = true) (mode : Mode) :
    e.accepted? mode = none ∧ (e.step mode).2 = e := by
  have none : e.agenda.heap[0]? = none := by
    simp only [Agenda.isEmpty, Array.isEmpty_iff] at empty
    simp [empty]
  have popped : e.agenda.pop = (.error .empty, e.agenda) := by rw [Agenda.pop, none]
  constructor
  · rw [accepted?, popped]
  · rw [step, popped]

/-- What can come of a step once the candidate `x`, whose content is `edge`, is off the agenda and
the policies have been asked, which leaves the engine `asked`. -/
inductive Takes (e : Engine Custom) (x : Entry) (edge : Edge) (asked : Engine Custom) :
    Except EngineError Step × Engine Custom → Prop where
  | fails {failure : DecisionError}
      (answer : (e.decisions.decide edge x.score.read.1).1 = .error failure) :
      Takes e x edge asked (.error (.decision failure), asked)
  | refuses (s : Step) (stats : RunStats) : Takes e x edge asked (.ok s, { asked with stats })
  | accepts (s : Step) (stats : RunStats) :
      Takes e x edge asked (.ok s, { (asked.commitWith x.edge true).2 with stats })

/-- What was decided is done without failure. -/
theorem Coherent.conclude_takes (coherent : asked.Coherent) {x : Entry}
    (live : asked.graph.edges.get? x.edge = some edge) {answer : Option Bool}
    {result : Except EngineError Outcome × Engine Custom}
    (concluded : asked.conclude x.edge answer = result) :
    ∃ outcome stats, result = (.ok outcome, { asked with stats }) ∨
      result = (.ok outcome, { (asked.commitWith x.edge true).2 with stats }) := by
  subst concluded
  match answer with
  | none => exact ⟨_, _, .inl rfl⟩
  | some false => exact ⟨_, _, .inl rfl⟩
  | some true =>
    obtain ⟨added, ok⟩ := coherent.commitWith_ok live
    rw [conclude, commit]
    generalize asked.commitWith x.edge true = answer at ok
    obtain ⟨result, e'⟩ := answer
    obtain rfl : result = .ok added := ok
    cases added with
    | true => exact ⟨_, _, .inr rfl⟩
    | false => exact ⟨_, e'.stats, .inr rfl⟩

/-- A step with candidates left takes one of them off the agenda and asks the policies about it. -/
theorem Coherent.step_takes (coherent : e.Coherent) (left : e.agenda.isEmpty = false)
    (mode : Mode) : ∃ x edge asked, e.agenda.toList.Perm (x :: asked.agenda.toList) ∧
      e.graph.edges.get? x.edge = some edge ∧
      asked = { e with
        agenda := asked.agenda
        decisions := (e.decisions.decide edge x.score.read.1).2
        stats := asked.stats } ∧
      asked.Coherent ∧ Takes e x edge asked (e.step mode) := by
  obtain ⟨x, _, popped, linked, perm⟩ := coherent.agenda.pop left
  have edges := perm.map Entry.edge
  obtain ⟨edge, live⟩ := coherent.pending x.edge (edges.mem_iff.mpr List.mem_cons_self)
  obtain ⟨agenda, same⟩ : ∃ agenda, e.agenda.pop = (.ok (Agenda.candidate x), agenda) :=
    ⟨_, Prod.ext popped rfl⟩
  rw [same] at linked perm edges
  obtain ⟨⟨result, decisions⟩, decided⟩ :
      ∃ answer, e.decisions.decide edge x.score.read.1 = answer := ⟨_, rfl⟩
  let asked : Engine Custom :=
    { e with agenda, decisions, stats := { e.stats with pops := e.stats.pops + 1 } }
  have coherentAsked : asked.Coherent := coherent.of_settles
    ⟨rfl, rfl, rfl, rfl, linked, fun d mem => edges.mem_iff.mpr (List.mem_cons_of_mem _ mem), rfl⟩
  refine ⟨x, edge, asked, perm, live, by rw [decided], coherentAsked, ?_⟩
  rw [Engine.step, same]
  simp only [consider, Agenda.candidate, Graph.edge_eq_ok_iff.mpr live, decided]
  cases result with
  | error failure => exact .fails (by rw [decided])
  | ok predicted =>
    cases mode <;> simp only <;>
      generalize concluded : conclude (_ : Engine Custom) x.edge _ = result
    all_goals
      obtain ⟨outcome, stats, rfl | rfl⟩ := coherentAsked.conclude_takes live concluded
      · exact .refuses _ stats
      · exact .accepts _ stats

theorem Coherent.works_step (coherent : e.Coherent) (mode : Mode) :
    Works e (e.step mode).2 := by
  cases left : e.agenda.isEmpty with
  | true =>
    rw [(step_of_isEmpty left mode).2]
    exact .refl e
  | false =>
    obtain ⟨x, edge, asked, _, _, same, coherentAsked, takes⟩ := coherent.step_takes left mode
    have works : Works e asked := ⟨by rw [same]⟩
    generalize e.step mode = answer at takes
    cases takes with
    | fails => exact works
    | refuses s stats => exact works.trans ⟨rfl⟩
    | accepts s stats =>
      exact (works.trans (coherentAsked.works_commitWith x.edge true)).trans ⟨rfl⟩

/-! ### Factors -/

/-- Factors are attached one after the other, and never taken away. -/
theorem Coherent.factorsAt_perform (coherent : e.Coherent) (op : Operation Custom)
    (path : List Key) :
    (op.perform e).trie.factorsAt path = e.trie.factorsAt path ++ op.attaches path := by
  have of_trie : op.attaches path = [] → (op.perform e).trie = e.trie →
      (op.perform e).trie.factorsAt path = e.trie.factorsAt path ++ op.attaches path :=
    fun none same => by rw [none, same, List.append_nil]
  cases op with
  | addRule rule scorer =>
    have none : (Operation.addRule rule scorer : Operation Custom).attaches path = [] := rfl
    rw [none, List.append_nil, Operation.perform, Engine.addRule]
    split
    · rfl
    · exact factorsAt_attach coherent.trie path
  | addFactor relation factor => exact Trie.factorsAt_addFactor coherent.trie _ _ factor
  | addCandidate id score =>
    apply of_trie rfl
    rw [Operation.perform, Engine.addCandidate]
    split
    · rfl
    · split
      · rfl
      · split <;> rfl
  | commit id matching => exact of_trie rfl (coherent.works_commitWith id matching).trie
  | step mode => exact of_trie rfl (coherent.works_step mode).trie
  | setPriority priority => exact of_trie rfl (setPriority_settles coherent.agenda priority).trie
  | addGold id => exact of_trie rfl (addGold_settles coherent.agenda id).trie
  | _ => exact of_trie rfl rfl

theorem Coherent.factorsAt_performAll (coherent : e.Coherent) (ops : List (Operation Custom))
    (path : List Key) : (e.performAll ops).trie.factorsAt path =
      e.trie.factorsAt path ++ ops.flatMap (Operation.attaches path) := by
  induction ops generalizing e with
  | nil => simp
  | cons op rest ih =>
    rw [performAll_cons, ih (coherent.perform op), coherent.factorsAt_perform, List.flatMap_cons,
      List.append_assoc]

end Engine

end ScoredChaining
