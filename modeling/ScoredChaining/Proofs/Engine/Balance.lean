import ScoredChaining.Proofs.Engine.Verdicts

/-!
The counts of an engine balance.

* `Engine.Pushes`: effects of a commit. What is generated is pending from then on or is counted as a
  duplicate, unless a factor takes candidates away, and nothing becomes pending that is committed.
* `Engine.Lenient`: no factor takes candidates away.
* `Engine.Balances`: what the counts, the agenda and the fact base show of steps.
* `Engine.Coherent.balances_step`, `Engine.Coherent.balances_runWithin`: one step, and a run.
* `Engine.Reachable.run_balances`: the balance of a run, in the counts that it reports.
-/

namespace ScoredChaining

variable {Custom : Type} [Decider Custom]

theorem Agenda.length_pending (a : Agenda) : a.pending.length = a.size := by
  simp [pending, toList, size]

namespace Engine

variable {e e' e'' : Engine Custom} {factors others : List Factor}

/-! ### Effects of a commit -/

/-- Effects that push candidates and apply these factors. -/
structure Pushes (e : Engine Custom) (factors : List Factor) (e' : Engine Custom) : Prop where
  facts : e'.facts = e.facts
  linked : e'.agenda.Linked
  pops : e'.stats.pops = e.stats.pops
  commits : e'.stats.commits = e.stats.commits
  rejects : e'.stats.rejects = e.stats.rejects
  undecided : e'.stats.undecided = e.stats.undecided
  generated : e.stats.generated ≤ e'.stats.generated
  duplicates : e.stats.duplicates ≤ e'.stats.duplicates
  /-- What is generated is pending or a duplicate. -/
  pending : (∀ f ∈ factors, ¬ f.Excludes) →
    e'.agenda.size + e'.stats.duplicates + e.stats.generated =
      e.agenda.size + e.stats.duplicates + e'.stats.generated
  /-- Nothing becomes pending that is committed. -/
  fresh : ∀ id ∈ e'.agenda.pending, id ∈ e.agenda.pending ∨ e.facts.contains id = false

namespace Pushes

theorem refl (linked : e.agenda.Linked) : Pushes e [] e :=
  ⟨rfl, linked, rfl, rfl, rfl, rfl, Nat.le_refl _, Nat.le_refl _, fun _ => rfl,
    fun _ mem => .inl mem⟩

theorem trans (first : Pushes e factors e') (second : Pushes e' others e'') :
    Pushes e (factors ++ others) e'' where
  facts := second.facts.trans first.facts
  linked := second.linked
  pops := second.pops.trans first.pops
  commits := second.commits.trans first.commits
  rejects := second.rejects.trans first.rejects
  undecided := second.undecided.trans first.undecided
  generated := Nat.le_trans first.generated second.generated
  duplicates := Nat.le_trans first.duplicates second.duplicates
  pending lenient := by
    have before := first.pending fun f mem => lenient f (List.mem_append_left _ mem)
    have after := second.pending fun f mem => lenient f (List.mem_append_right _ mem)
    omega
  fresh id mem := by
    rcases second.fresh id mem with old | new
    · exact first.fresh id old
    · exact .inr (first.facts ▸ new)

/-- A candidate that becomes pending is not committed. -/
theorem fresh_addCandidate (linked : e.agenda.Linked) (id : EdgeId) (score : Score) :
    ∀ d ∈ (e.addCandidate id score).2.agenda.pending,
      d ∈ e.agenda.pending ∨ e.facts.contains d = false := by
  intro d mem
  unfold Engine.addCandidate at mem
  split at mem
  · exact .inl mem
  · rename_i new
    rw [Bool.not_eq_true, Bool.or_eq_false_iff] at new
    split at mem
    · exact .inl mem
    · rename_i edge _
      obtain ⟨ok, _, perm⟩ := linked.add new.1 edge score (e.priority.of e.graph edge score)
      generalize e.agenda.add id edge score (e.priority.of e.graph edge score) = answer
        at ok perm mem
      obtain ⟨result, agenda⟩ := answer
      obtain rfl : result = .ok () := ok
      have added := (perm.map Entry.edge).mem_iff.mp mem
      rw [List.map_append, List.mem_append] at added
      rcases added with old | here
      · exact .inl old
      · obtain rfl : d = id := by simpa using here
        exact .inr new.2

/-- A conclusion that is counted and not lost becomes pending, or is a duplicate. -/
theorem addCandidate (linked : e.agenda.Linked) {p : Proposal} {added : Bool}
    {after : Engine Custom}
    (ok : { e with stats := { e.stats with generated := e.stats.generated + 1 } }.addCandidate
      p.edge p.score = (.ok added, after)) : Pushes e [] after := by
  have fresh := fresh_addCandidate
    (e := { e with stats := { e.stats with generated := e.stats.generated + 1 } }) linked p.edge
    p.score
  rw [ok] at fresh
  unfold Engine.addCandidate at ok
  split at ok
  · cases ok
    refine ⟨rfl, linked, rfl, rfl, rfl, rfl, Nat.le_succ _, Nat.le_succ _, fun _ => ?_, fresh⟩
    change e.agenda.size + (e.stats.duplicates + 1) + e.stats.generated =
      e.agenda.size + e.stats.duplicates + (e.stats.generated + 1)
    omega
  · rename_i new
    rw [Bool.not_eq_true, Bool.or_eq_false_iff] at new
    split at ok
    · cases ok
    · rename_i edge _
      obtain ⟨isOk, linked', perm⟩ :=
        linked.add new.1 edge p.score (e.priority.of e.graph edge p.score)
      have more := perm.length_eq
      rw [List.length_append, List.length_singleton] at more
      generalize e.agenda.add p.edge edge p.score (e.priority.of e.graph edge p.score) = answer
        at ok isOk linked' more
      obtain ⟨result, agenda⟩ := answer
      obtain rfl : result = .ok () := isOk
      cases ok
      refine ⟨rfl, linked', rfl, rfl, rfl, rfl, Nat.le_succ _, Nat.le_refl _, fun _ => ?_, fresh⟩
      change agenda.size + e.stats.duplicates + e.stats.generated =
        e.agenda.size + e.stats.duplicates + (e.stats.generated + 1)
      have larger : agenda.size = e.agenda.size + 1 := more
      omega

theorem propose {proposals : List Proposal} (linked : e.agenda.Linked)
    (ok : Engine.propose proposals e = (.ok (), e')) : Pushes e [] e' := by
  induction proposals generalizing e with
  | nil =>
    cases ok
    exact .refl linked
  | cons p rest ih =>
    rw [Engine.propose] at ok
    simp only at ok
    generalize added : Engine.addCandidate (_ : Engine Custom) p.edge p.score = answer at ok
    obtain ⟨_ | _, e₁⟩ := answer
    · cases ok
    · have first := addCandidate linked added
      exact first.trans (ih first.linked ok)

theorem runGenerators {bindings : List Binding} {generators : List RuleGenerator}
    (linked : e.agenda.Linked) (ok : Engine.runGenerators bindings generators e = (.ok (), e')) :
    Pushes e [] e' := by
  induction generators generalizing e with
  | nil =>
    cases ok
    exact .refl linked
  | cons r rest ih =>
    rw [Engine.runGenerators] at ok
    simp only at ok
    split at ok
    · cases ok
    · rename_i proposals graph _
      have counted : Pushes e []
          { e with graph, stats := { e.stats with firings := e.stats.firings + 1 } } :=
        ⟨rfl, linked, rfl, rfl, rfl, rfl, Nat.le_refl _, Nat.le_refl _, fun _ => rfl,
          fun _ mem => .inl mem⟩
      generalize proposed : Engine.propose proposals (_ : Engine Custom) = answer at ok
      obtain ⟨_ | _, e₁⟩ := answer
      · cases ok
      · have first := counted.trans (propose linked proposed)
        exact first.trans (ih first.linked ok)

theorem runFactors {bindings : List Binding} (linked : e.agenda.Linked)
    (ok : Engine.runFactors bindings factors e = (.ok (), e')) : Pushes e factors e' := by
  induction factors generalizing e with
  | nil =>
    cases ok
    exact .refl linked
  | cons f rest ih =>
    obtain ⟨_, linked', subset⟩ := f.rescore_spec bindings e.graph e.priority linked
    rw [Engine.runFactors] at ok
    split at ok
    · cases ok
    · rename_i agenda rescored
      have first : Pushes e [f] { e with agenda } := by
        rw [rescored] at linked' subset
        refine ⟨rfl, linked', rfl, rfl, rfl, rfl, Nat.le_refl _, Nat.le_refl _, fun lenient => ?_,
          fun id mem => .inl (subset id mem)⟩
        have perm := Factor.perm_pending_rescore (lenient f (List.mem_singleton_self f)) bindings
          e.graph e.priority linked
        have size := perm.length_eq
        rw [rescored, Agenda.length_pending, Agenda.length_pending] at size
        simp only at size ⊢
        rw [size]
      exact first.trans (ih first.linked ok)

theorem runMatch {m : Match RuleGenerator Factor} (linked : e.agenda.Linked)
    (ok : Engine.runMatch m e = (.ok (), e')) : Pushes e m.actions.factors e' := by
  rw [Engine.runMatch] at ok
  generalize asked : Engine.runGenerators m.bindings m.actions.generators e = answer at ok
  obtain ⟨_ | _, e₁⟩ := answer
  · cases ok
  · have first := runGenerators linked asked
    exact first.trans (runFactors first.linked ok)

theorem runMatches {found : List (Match RuleGenerator Factor)} (linked : e.agenda.Linked)
    (ok : Engine.runMatches found e = (.ok (), e')) :
    Pushes e (found.flatMap fun m => m.actions.factors) e' := by
  induction found generalizing e with
  | nil =>
    cases ok
    exact .refl linked
  | cons m rest ih =>
    rw [Engine.runMatches] at ok
    generalize taken : Engine.runMatch m e = answer at ok
    obtain ⟨_ | _, e₁⟩ := answer
    · cases ok
    · have first := runMatch linked taken
      exact first.trans (ih first.linked ok)

end Pushes

/-! ### Commits -/

/-- No factor of the engine takes candidates off the agenda. -/
def Lenient (e : Engine Custom) : Prop :=
  ∀ path, ∀ f ∈ e.trie.factorsAt path, ¬ f.Excludes

/-- An engine stays lenient unless it is given a factor that is not. -/
theorem Coherent.lenient_performAll (coherent : e.Coherent) (lenient : e.Lenient)
    {ops : List (Operation Custom)}
    (given : ∀ op ∈ ops, ∀ relation f, op = .addFactor relation f → ¬ f.Excludes) :
    (e.performAll ops).Lenient := by
  intro path f mem
  rw [coherent.factorsAt_performAll, List.mem_append] at mem
  rcases mem with old | new
  · exact lenient path f old
  · obtain ⟨op, isOp, attached⟩ := List.mem_flatMap.mp new
    obtain ⟨relation, same, _⟩ := Operation.mem_attaches_iff.mp attached
    exact given op isOp relation f same

theorem lenient_withPriority (settings : Settings) (priority : Priority) :
    (withPriority settings priority : Engine Custom).Lenient := by
  intro path f mem
  simp [withPriority, Trie.factorsAt, Actions.none] at mem

/-- Committing a new fact pushes candidates once the fact is entered. -/
theorem Coherent.commitWith_pushes (coherent : e.Coherent) {id : EdgeId} {edge : Edge}
    (live : e.graph.edges.get? id = some edge) (new : e.facts.contains id = false) :
    ∃ factors, Pushes (e.record id edge).2 factors (e.commitWith id true).2 ∧
      (e.Lenient → ∀ f ∈ factors, ¬ f.Excludes) := by
  have linked : (e.entered id edge).agenda.Linked := coherent.agenda
  have counted : Pushes (e.record id edge).2 [] (e.entered id edge) := by
    rw [record_of_new new]
    exact ⟨rfl, linked, rfl, rfl, rfl, rfl, Nat.le_refl _, Nat.le_refl _, fun _ => rfl,
      fun _ mem => .inl mem⟩
  have ok := (coherent.commit_effects live new).1
  rw [(coherent.commit_eq live new).1] at ok ⊢
  generalize fired : runMatches (e.completed id edge) (e.entered id edge) = answer at ok ⊢
  obtain ⟨_ | _, e₁⟩ := answer
  · cases ok
  · refine ⟨_, counted.trans (Pushes.runMatches linked fired), fun lenient f mem => ?_⟩
    obtain ⟨m, memM, memF⟩ := List.mem_flatMap.mp mem
    obtain ⟨walk, listed, rfl⟩ := List.mem_map.mp memM
    apply lenient (pathOf walk.1) f
    rwa [Trie.factorsAt_of_actionsAt? (Trie.mem_walks_iff.mp listed).2]

/-- Nothing that is pending is committed. -/
def Apart (e : Engine Custom) : Prop :=
  ∀ id ∈ e.agenda.pending, e.facts.contains id = false

instance (e : Engine Custom) : Decidable e.Apart :=
  inferInstanceAs (Decidable (∀ id ∈ e.agenda.pending, e.facts.contains id = false))

/-! ### Steps -/

/-- What the counts, the agenda and the fact base show of steps that lead from one engine to
another. -/
structure Balances (e : Engine Custom) (steps : List Step) (e' : Engine Custom) : Prop where
  trie : e'.trie = e.trie
  pops : e'.stats.pops = e.stats.pops + steps.length
  commits : e'.stats.commits = e.stats.commits + steps.countP (·.outcome = .committed)
  rejects : e'.stats.rejects = e.stats.rejects + steps.countP (·.outcome = .rejected)
  undecided : e.stats.undecided ≤ e'.stats.undecided
  /-- A candidate without an answer is rejected. -/
  undecided_le : e'.stats.undecided + e.stats.rejects ≤ e.stats.undecided + e'.stats.rejects
  generated : e.stats.generated ≤ e'.stats.generated
  duplicates : e.stats.duplicates ≤ e'.stats.duplicates
  /-- What was pending or is generated is pending, a duplicate or taken by a step. -/
  pending : e.Lenient → e'.agenda.size + e'.stats.duplicates + steps.length + e.stats.generated =
    e.agenda.size + e.stats.duplicates + e'.stats.generated
  order : e'.facts.order =
    e.facts.order ++ (steps.filter (·.outcome = .committed)).map Step.edge
  apart : e.Apart → e'.Apart ∧ ∀ s ∈ steps, s.outcome ≠ .alreadyCommitted

theorem Balances.refl (e : Engine Custom) : Balances e [] e where
  trie := rfl
  pops := rfl
  commits := rfl
  rejects := rfl
  undecided := Nat.le_refl _
  undecided_le := Nat.le_refl _
  generated := Nat.le_refl _
  duplicates := Nat.le_refl _
  pending _ := rfl
  order := by simp
  apart isApart := ⟨isApart, by simp⟩

theorem Balances.trans {steps others : List Step} (first : Balances e steps e')
    (second : Balances e' others e'') : Balances e (steps ++ others) e'' where
  trie := second.trie.trans first.trie
  pops := by rw [second.pops, first.pops, List.length_append, Nat.add_assoc]
  commits := by rw [second.commits, first.commits, List.countP_append, Nat.add_assoc]
  rejects := by rw [second.rejects, first.rejects, List.countP_append, Nat.add_assoc]
  undecided := Nat.le_trans first.undecided second.undecided
  undecided_le := by
    have before := first.undecided_le
    have after := second.undecided_le
    omega
  generated := Nat.le_trans first.generated second.generated
  duplicates := Nat.le_trans first.duplicates second.duplicates
  pending lenient := by
    have before := first.pending lenient
    have after := second.pending fun path f mem => lenient path f (first.trie ▸ mem)
    rw [List.length_append]
    omega
  order := by
    rw [second.order, first.order, List.filter_append, List.map_append, List.append_assoc]
  apart isApart := by
    obtain ⟨between, before⟩ := first.apart isApart
    obtain ⟨last, after⟩ := second.apart between
    exact ⟨last, fun s mem => (List.mem_append.mp mem).elim (before s) (after s)⟩

variable {c : Candidate} {edge : Edge} {mode : Mode} {s : Step}

theorem Coherent.size_asked (coherent : e.Coherent) (taken : e.taken? = some (c, edge)) :
    e.agenda.size = (e.asked c edge).agenda.size + 1 := by
  have perm := pending_of_taken coherent.agenda taken
  rw [← Agenda.length_pending, perm.length_eq, List.length_cons, Agenda.length_pending]
  rfl

theorem Coherent.apart_asked (coherent : e.Coherent) (taken : e.taken? = some (c, edge))
    (isApart : e.Apart) : (e.asked c edge).Apart ∧ e.facts.contains c.edge = false ∧
      c.edge ∉ (e.asked c edge).agenda.pending := by
  have perm := pending_of_taken coherent.agenda taken
  exact ⟨fun id mem => isApart id (perm.mem_iff.mpr (List.mem_cons_of_mem _ mem)),
    isApart c.edge (perm.mem_iff.mpr List.mem_cons_self), not_pending_asked coherent.agenda taken⟩

/-- A step takes one candidate off the agenda, and counts what becomes of it. -/
theorem Coherent.balances_step (coherent : e.Coherent) (ok : e.step mode = (.ok s, e')) :
    Balances e [s] e' := by
  obtain ⟨c, edge, taken⟩ := coherent.taken_of_ok ok
  have size := coherent.size_asked taken
  have apartAsked := coherent.apart_asked taken
  have verdict := coherent.step_verdict taken mode
  have trie := (coherent.works_step mode).trie
  rw [ok] at verdict trie
  cases verdict with
  | rejects answer refused =>
    refine ⟨trie, rfl, rfl, rfl, Nat.le_add_right _ _, ?_, Nat.le_refl _, Nat.le_refl _, fun _ => ?_,
      ?_, fun isApart => ⟨(apartAsked isApart).1, by simp [report]⟩⟩
    · simp only [reject, Engine.asked]
      split <;> omega
    · simp only [reject, Engine.asked, List.length_singleton] at size ⊢
      omega
    · simp [reject, Engine.asked, report]
  | @commits _ after answer accepted new committed =>
    have live := live_of_taken taken
    obtain ⟨factors, pushes, lenient⟩ := (coherent.asked c edge).commitWith_pushes live new
    rw [committed, record_of_new (e := e.asked c edge) new] at pushes
    have commits : after.stats.commits = e.stats.commits := pushes.commits
    have rejects : after.stats.rejects = e.stats.rejects := pushes.rejects
    have undecided : after.stats.undecided = e.stats.undecided := pushes.undecided
    have facts : after.facts = (e.facts.add c.edge edge).2 := pushes.facts
    refine ⟨trie, pushes.pops, by rw [commits]; rfl, rejects, Nat.le_of_eq undecided.symm,
      by simp [undecided, rejects], pushes.generated, pushes.duplicates, fun isLenient => ?_, ?_,
      fun isApart => ⟨fun id mem => ?_, by simp [report]⟩⟩
    · have balance : after.agenda.size + after.stats.duplicates + e.stats.generated =
        (e.asked c edge).agenda.size + e.stats.duplicates + after.stats.generated :=
        pushes.pending (lenient isLenient)
      simp only [List.length_singleton]
      omega
    · simp [facts, FactBase.order_add new, report]
    · obtain ⟨apart, _, taken⟩ := apartAsked isApart
      simp only [facts]
      rcases pushes.fresh id mem with old | new
      · rw [Bool.eq_false_iff]
        intro known
        rcases FactBase.contains_add_iff.mp known with rfl | before
        · exact taken old
        · exact Bool.eq_false_iff.mp (apart id old) before
      · exact new
  | knows answer accepted known =>
    refine ⟨trie, rfl, rfl, rfl, Nat.le_refl _, Nat.le_refl _, Nat.le_refl _, Nat.le_refl _,
      fun _ => ?_, ?_, fun isApart => ?_⟩
    · simp only [Engine.asked, List.length_singleton] at size ⊢
      omega
    · simp [Engine.asked, report]
    · rw [(apartAsked isApart).2.1] at known
      cases known

/-! ### Runs -/

/-- The steps of a run that ends without failure balance. -/
theorem Coherent.balances_runWithin {fuel : Nat} {limit : Option Nat} (coherent : e.Coherent)
    (ended : (runWithin mode fuel limit e).ending = .exhausted ∨
      (runWithin mode fuel limit e).ending = .limited) :
    Balances e (runWithin mode fuel limit e).steps (runWithin mode fuel limit e).engine := by
  have goes := goes mode fuel limit e
  generalize runWithin mode fuel limit e = r at goes ended
  induction goes with
  | exhausted => exact .refl _
  | limited => exact .refl _
  | outOfFuel => simp at ended
  | failed => simp at ended
  | @step _ _ e _ _ _ _ _ stepped _ ih =>
    have coherent' : (e.step mode).2.Coherent := coherent.step mode
    rw [stepped] at coherent'
    exact (coherent.balances_step stepped).trans (ih coherent' ended)

/-- Every step ends in one of the three ways. -/
theorem length_steps (steps : List Step) : steps.length =
    steps.countP (·.outcome = .committed) + steps.countP (·.outcome = .rejected) +
      steps.countP (·.outcome = .alreadyCommitted) := by
  induction steps with
  | nil => rfl
  | cons s rest ih =>
    simp only [List.length_cons, List.countP_cons, ih]
    cases s.outcome <;> simp <;> omega

/-- The counts that a run reports, the agenda and the fact base after a run that ends without
failure. Every candidate that a step takes is counted once, what is pending changes by what comes and
goes unless a factor takes candidates away, and the facts committed by the run follow in the order of
its steps. -/
theorem Reachable.run_balances (reachable : Reachable e) (mode : Mode) (fuel : Nat)
    (limit : Option Nat) (ended : (Engine.runWithin mode fuel limit e).ending = .exhausted ∨
      (Engine.runWithin mode fuel limit e).ending = .limited) :
    let run := Engine.runWithin mode fuel limit e
    let stats := run.stats e.stats
    stats.pops = run.steps.length ∧
      stats.commits = run.steps.countP (·.outcome = .committed) ∧
      stats.rejects = run.steps.countP (·.outcome = .rejected) ∧
      stats.pops =
        stats.commits + stats.rejects + run.steps.countP (·.outcome = .alreadyCommitted) ∧
      stats.undecided ≤ stats.rejects ∧
      (e.Lenient → run.engine.agenda.size + stats.duplicates + stats.pops =
        e.agenda.size + stats.generated) ∧
      run.engine.facts.order =
        e.facts.order ++ (run.steps.filter (·.outcome = .committed)).map Step.edge ∧
      (e.Apart → run.engine.Apart ∧ ∀ s ∈ run.steps, s.outcome ≠ .alreadyCommitted) := by
  intro run stats
  have balances : Balances e run.steps run.engine := reachable.coherent.balances_runWithin ended
  have pops : stats.pops = run.steps.length := by
    simp only [stats, Run.stats, RunStats.since]
    rw [balances.pops, Nat.add_sub_cancel_left]
  have commits : stats.commits = run.steps.countP (·.outcome = .committed) := by
    simp only [stats, Run.stats, RunStats.since]
    rw [balances.commits, Nat.add_sub_cancel_left]
  have rejects : stats.rejects = run.steps.countP (·.outcome = .rejected) := by
    simp only [stats, Run.stats, RunStats.since]
    rw [balances.rejects, Nat.add_sub_cancel_left]
  refine ⟨pops, commits, rejects, ?_, ?_, fun lenient => ?_, balances.order, balances.apart⟩
  · rw [pops, commits, rejects, length_steps]
  · have le := balances.undecided_le
    simp only [stats, Run.stats, RunStats.since]
    omega
  · have balance := balances.pending lenient
    have generated := balances.generated
    have duplicates := balances.duplicates
    rw [pops]
    simp only [stats, Run.stats, RunStats.since]
    omega

/-- The second link is pending. -/
def expecting : Engine :=
  chained.performAll [.addCandidate ⟨.temporary, 1⟩ (.constant 1.0)]

theorem reachable_expecting : Reachable expecting :=
  reachable_chained.performAll _

theorem lenient_expecting : expecting.Lenient := by
  let ops : List (Operation) :=
    .declare "link" ["point", "point"] :: .addRule chainRule (.constant 1.0) :: links ++
      [.addCandidate ⟨.temporary, 1⟩ (.constant 1.0)]
  have given : ∀ op ∈ ops, ∀ relation f, op = .addFactor relation f → ¬ f.Excludes := by
    simp [ops, links]
  exact (Coherent.withPriority .usual .byScore).lenient_performAll
    (lenient_withPriority .usual .byScore) given

/-- The second link and the path that it completes are committed. -/
theorem run_balances_expecting : Reachable expecting ∧ expecting.Lenient ∧ expecting.Apart ∧
    let run := runWithin .decoder 3 none expecting
    let stats := run.stats expecting.stats
    run.ending = .exhausted ∧ run.steps.length = 2 ∧ stats.pops = 2 ∧ stats.commits = 2 ∧
      run.engine.agenda.size + stats.duplicates + stats.pops =
        expecting.agenda.size + stats.generated ∧
      run.engine.Apart := by
  have ended : (runWithin .decoder 3 none expecting).ending = .exhausted := by decide +kernel
  have taken : (runWithin .decoder 3 none expecting).steps.length = 2 := by decide +kernel
  have committed : (runWithin .decoder 3 none expecting).steps.countP
      (·.outcome = .committed) = 2 := by
    decide +kernel
  have isApart : expecting.Apart := by decide +kernel
  obtain ⟨pops, commits, _, _, _, pending, _, apart⟩ :=
    Reachable.run_balances reachable_expecting .decoder 3 none (.inl ended)
  exact ⟨reachable_expecting, lenient_expecting, isApart, ended, taken, pops.trans taken,
    commits.trans committed, pending lenient_expecting, (apart isApart).1⟩

end Engine

end ScoredChaining
