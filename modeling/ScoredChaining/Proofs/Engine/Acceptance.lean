import ScoredChaining.Proofs.Engine.Steps

/-!
Engines that accept every candidate: the only policy is the threshold of the settings, there are no
factors, and every rule scores above the threshold.

* `Operation.Chains`: making facts, committing them with matching, and steps of the policies.
* `Engine.Advances`: what such an operation does to an engine that accepts. Nothing that was
  proposed is lost, and nothing comes in that was neither proposed nor committed by request.
* `Engine.Accepts.step_spec`: a step commits the candidate that it takes off the agenda.
-/

namespace ScoredChaining

variable {Custom : Type} [Decider Custom]

/-- The operation makes facts, commits one with matching, or asks the policies about a candidate. -/
def Operation.Chains : Operation Custom → Prop
  | .makeEdgeFromValues _ _ _ => True
  | .commit _ matching => matching = true
  | .step mode => mode = .decoder
  | _ => False

omit [Decider Custom] in
theorem Operation.Chains.isMatching {op : Operation Custom} (chains : op.Chains) :
    op.IsMatching := by
  cases op <;> first | exact chains | exact trivial

namespace Engine

/-- The threshold of the settings decides about everything, and every rule scores above it. -/
structure Accepting (e : Engine Custom) : Prop where
  decisions : e.decisions = .ofFallback (.threshold e.settings.threshold none)
  factors : ∀ path a, e.trie.actionsAt? path = some a → a.factors = []
  scorers : ∀ path, ∀ r ∈ e.trie.generatorsAt path,
    ∃ x, r.scorer = .constant x ∧ e.settings.threshold < x

/-- An accepting engine whose pending candidates score above the threshold. -/
structure Accepts (e : Engine Custom) : Prop where
  coherent : e.Coherent
  accepting : Accepting e
  pending : ∀ x ∈ e.agenda.toList, ∃ c, x.score = .constant c ∧ e.settings.threshold < c

/-- The fact is pending or committed. -/
def Known (e : Engine Custom) (id : EdgeId) : Prop :=
  id ∈ e.agenda.pending ∨ id ∈ e.facts.order

/-- What an operation does to an engine that accepts every candidate. -/
structure Advances (e : Engine Custom) (op : Operation Custom) : Prop where
  accepts : Accepts (op.perform e)
  settings : (op.perform e).settings = e.settings
  rules : (op.perform e).rules = e.rules
  kept : ∀ id, Known e id → Known (op.perform e) id
  there : ∀ f ∈ op.firings e, ∀ p ∈ f.proposals, Known (op.perform e) p.edge
  new : ∀ id, Known (op.perform e) id →
    Known e id ∨ op = .commit id true ∨ ∃ f ∈ op.firings e, ∃ p ∈ f.proposals, p.edge = id

variable {e e' : Engine Custom} {id : EdgeId} {edge : Edge}

/-- An engine accepts as long as its settings, policies and patterns stay. -/
theorem Accepting.of_eq (accepting : Accepting e) (settings : e'.settings = e.settings)
    (decisions : e'.decisions = e.decisions) (trie : e'.trie = e.trie) : Accepting e' := by
  refine ⟨?_, ?_, ?_⟩
  · rw [decisions, settings]
    exact accepting.decisions
  · rw [trie]
    exact accepting.factors
  · rw [trie, settings]
    exact accepting.scorers

/-- What a call proposes scores above the threshold. -/
theorem Accepting.score_of_firing (accepting : Accepting e) (coherent : e.Coherent)
    (op : Operation Custom)
    {f : Firing} (called : f ∈ op.firings e) {p : Proposal} (proposed : p ∈ f.proposals) :
    ∃ c, p.score = .constant c ∧ e.settings.threshold < c := by
  obtain ⟨edge, fires⟩ := coherent.fires_of_mem called
  obtain ⟨_, moves, _, at_, _⟩ := fires.exists_walk called
  obtain ⟨x, scorer, above⟩ := accepting.scorers _ _ (List.mem_of_getElem? at_)
  obtain ⟨wf, fed, _, _⟩ := fires.called f called
  obtain ⟨_, _, _, _, _, _, _, _, score⟩ := Firing.concludes wf fed proposed
  exact ⟨x, by rw [score, scorer]; rfl, above⟩

/-! ### Setting up -/

theorem accepting_withPriority (settings : Settings) (priority : Priority) :
    Accepting (.withPriority settings priority : Engine Custom) := by
  refine ⟨rfl, fun path a found => ?_, fun path r mem => ?_⟩
  · simp [withPriority] at found
  · simp [withPriority, Trie.generatorsAt, Actions.none] at mem

/-- Where there were no factors, attaching a rule brings none. -/
theorem factors_attach {rule : CompiledRule} {scorer : Scorer} {t : Trie RuleGenerator Factor}
    (sorted : t.Sorted) (factors : ∀ path a, t.actionsAt? path = some a → a.factors = []) :
    ∀ path a, (attach rule scorer t).actionsAt? path = some a → a.factors = [] := by
  intro path a found
  rw [← Trie.factorsAt_of_actionsAt? found, factorsAt_attach sorted, Trie.factorsAt]
  cases before : t.actionsAt? path with
  | none => rfl
  | some a => exact factors path a before

/-- A rule that scores above the threshold can be added. -/
theorem Accepting.addRule (accepting : Accepting e) (coherent : e.Coherent) (rule : Rule)
    {x : Float} (above : e.settings.threshold < x) : Accepting (e.addRule rule (.constant x)).2 := by
  rw [Engine.addRule]
  split
  · exact accepting.of_eq rfl rfl rfl
  · refine ⟨accepting.decisions, factors_attach coherent.trie accepting.factors, ?_⟩
    intro path r mem
    rw [generatorsAt_attach coherent.trie] at mem
    rcases List.mem_append.mp mem with old | new
    · exact accepting.scorers path r old
    · obtain ⟨_, _, rfl⟩ := List.mem_map.mp new
      exact ⟨x, rfl, above⟩

/-! ### Commits -/

/-- What committing a live fact does to an engine that accepts every candidate. -/
structure Absorbs (e : Engine Custom) (id : EdgeId) (e' : Engine Custom) : Prop where
  accepts : Accepts e'
  settings : e'.settings = e.settings
  rules : e'.rules = e.rules
  committed : id ∈ e'.facts.order
  kept : ∀ d, Known e d → Known e' d
  there : ∀ f ∈ e.commitFirings id true, ∀ p ∈ f.proposals, Known e' p.edge
  new : ∀ d, Known e' d →
    Known e d ∨ d = id ∨ ∃ f ∈ e.commitFirings id true, ∃ p ∈ f.proposals, p.edge = d

/-- Committing a live fact succeeds, and whatever it proposes is known from then on. -/
theorem Accepts.commit (accepts : Accepts e) (live : e.graph.edges.get? id = some edge) :
    ∃ added, (e.commitWith id true).1 = .ok added ∧ Absorbs e id (e.commitWith id true).2 := by
  have coherent := accepts.coherent
  cases known : e.facts.contains id with
  | true =>
    obtain ⟨same, none⟩ := commitWith_of_contains live known true
    rw [same]
    refine ⟨false, rfl, accepts, rfl, rfl, ?_, fun _ known => known, ?_, fun _ known => .inl known⟩
    · exact (coherent.facts.order id).mpr (FactBase.contains_iff.mp known)
    · rw [none]
      simp
  | false =>
    obtain ⟨ok, effects, delivers, _⟩ := coherent.commit_effects live known
    have delivers := delivers accepts.accepting.factors
    have scored : ∀ f ∈ e.commitFirings id true, ∀ p ∈ f.proposals,
        ∃ c, p.score = .constant c ∧ e.settings.threshold < c := fun f called p proposed =>
      accepts.accepting.score_of_firing coherent (.commit id true) called proposed
    rw [record_of_new known] at effects delivers
    have frame := effects.frame
    have order : (e.commitWith id true).2.facts.order = e.facts.order ++ [id] := by
      rw [frame.facts, FactBase.order_add known]
    have settings : (e.commitWith id true).2.settings = e.settings := frame.settings
    have decisions : (e.commitWith id true).2.decisions = e.decisions := by
      rw [frame.decisions, accepts.accepting.decisions]
      rfl
    refine ⟨true, ok, ⟨effects.coherent, accepts.accepting.of_eq settings decisions frame.trie, ?_⟩,
      settings, frame.rules, ?_, ?_, ?_, ?_⟩
    · intro x mem
      rw [settings]
      rcases delivers.new x mem with old | ⟨f, called, p, proposed, _, score⟩
      · exact accepts.pending x old
      · rw [score]
        exact scored f called p proposed
    · rw [order]
      exact List.mem_append_right _ (List.mem_singleton_self id)
    · rintro d (pending | committed)
      · obtain ⟨x, mem, rfl⟩ := List.mem_map.mp pending
        exact .inl (mem_pending_of_mem (delivers.kept x mem))
      · right
        rw [order]
        exact List.mem_append_left _ committed
    · intro f called p proposed
      apply (delivers.there f called p proposed).imp_right
      intro committed
      exact (effects.coherent.facts.order _).mpr (FactBase.contains_iff.mp committed)
    · rintro d (pending | committed)
      · rcases effects.pending d pending with old | proposed
        · exact .inl (.inl old)
        · exact .inr (.inr proposed)
      · rw [order] at committed
        rcases List.mem_append.mp committed with old | new
        · exact .inl (.inr old)
        · exact .inr (.inl (List.mem_singleton.mp new))

/-! ### Steps -/

/-- A step with candidates left takes one of them off the agenda, accepts it and commits it. -/
theorem Accepts.step_spec (accepts : Accepts e) (left : e.agenda.isEmpty = false) :
    ∃ x before s stats, e.agenda.toList.Perm (x :: before.agenda.toList) ∧
      e.accepted? .decoder = some (x.edge, before) ∧
      before = { e with agenda := before.agenda, stats := before.stats } ∧
      Accepts before ∧ (∃ edge, before.graph.edges.get? x.edge = some edge) ∧
      e.step .decoder = (.ok s, { (before.commitWith x.edge true).2 with stats }) := by
  obtain ⟨x, _, popped, linked, perm⟩ := accepts.coherent.agenda.pop left
  have mem : x ∈ e.agenda.toList := perm.mem_iff.mpr List.mem_cons_self
  obtain ⟨edge, live⟩ := accepts.coherent.pending x.edge (mem_pending_of_mem mem)
  obtain ⟨c, score, above⟩ := accepts.pending x mem
  obtain ⟨agenda, same⟩ : ∃ agenda, e.agenda.pop = (.ok (Agenda.candidate x), agenda) :=
    ⟨_, Prod.ext popped rfl⟩
  rw [same] at linked perm
  let before : Engine Custom :=
    { e with agenda, stats := { e.stats with pops := e.stats.pops + 1 } }
  have decided : e.decisions.decide edge c = (.ok (some true), e.decisions) := by
    rw [accepts.accepting.decisions]
    simp [Dispatch.decide, Dispatch.ofFallback, Policy.decideFor, Policy.decide, above]
  have acceptsBefore : Accepts before := by
    refine ⟨?_, accepts.accepting.of_eq rfl rfl rfl, fun y memY => ?_⟩
    · refine accepts.coherent.of_settles ⟨rfl, rfl, rfl, rfl, linked, fun d memD => ?_, rfl⟩
      exact (perm.map Entry.edge).mem_iff.mpr (List.mem_cons_of_mem _ memD)
    · exact accepts.pending y (perm.mem_iff.mpr (List.mem_cons_of_mem _ memY))
  obtain ⟨added, ok, _⟩ := acceptsBefore.commit live
  obtain ⟨outcome, stats, concluded⟩ : ∃ outcome stats, before.conclude x.edge (some true) =
      (.ok outcome, { (before.commitWith x.edge true).2 with stats }) := by
    rw [conclude, Engine.commit]
    generalize before.commitWith x.edge true = answer at ok
    obtain ⟨result, e'⟩ := answer
    obtain rfl : result = .ok added := ok
    cases added with
    | true => exact ⟨_, _, rfl⟩
    | false => exact ⟨_, e'.stats, rfl⟩
  have stepped : e.step .decoder =
      (.ok ⟨x.edge, .constant c, e.labels.label edge, some true, outcome⟩,
        { (before.commitWith x.edge true).2 with stats }) := by
    have considered : before.consider .decoder (Agenda.candidate x) = e.step .decoder := by
      rw [step, same]
    rw [← considered, consider, Agenda.candidate, Graph.edge_eq_ok_iff.mpr live]
    simp only [score, Score.read, before]
    rw [decided]
    simp only [before] at concluded
    simp only [concluded]
  refine ⟨x, before, _, stats, perm, ?_, rfl, acceptsBefore, ⟨edge, live⟩, stepped⟩
  simp [accepted?, same, Agenda.candidate, Graph.edge_eq_ok_iff.mpr live, score, Score.read,
    decided, Engine.decided, before]

/-! ### Operations -/

/-- An operation that changes nothing and calls nothing. -/
theorem Accepts.advances_of_same (accepts : Accepts e) {op : Operation Custom}
    (none : op.firings e = []) (same : op.perform e = e) : Advances e op := by
  refine ⟨same.symm ▸ accepts, by rw [same], by rw [same], ?_, by simp [none], ?_⟩
  · rw [same]
    exact fun _ known => known
  · rw [same]
    exact fun _ known => .inl known

theorem Accepts.withStats (accepts : Accepts e) (stats : RunStats) : Accepts { e with stats } :=
  have coherent := accepts.coherent
  ⟨⟨coherent.graph, coherent.facts, coherent.committed, coherent.agenda, coherent.pending,
    coherent.trie, coherent.attached, coherent.placed, coherent.typed⟩,
    accepts.accepting.of_eq rfl rfl rfl, accepts.pending⟩

theorem Accepts.advances_step (accepts : Accepts e) (left : e.agenda.isEmpty = false) :
    Advances e (.step .decoder) := by
  obtain ⟨x, before, s, stats, perm, accepted, same, acceptsBefore, ⟨edge, live⟩, stepped⟩ :=
    accepts.step_spec left
  obtain ⟨_, _, absorbs⟩ := acceptsBefore.commit live
  have pending : ∀ d, d ∈ e.agenda.pending ↔ d = x.edge ∨ d ∈ before.agenda.pending := fun d => by
    rw [Agenda.pending, (perm.map Entry.edge).mem_iff, List.map_cons, List.mem_cons]
    rfl
  have order : before.facts.order = e.facts.order := by rw [same]
  have settings : before.settings = e.settings := by rw [same]
  have rules : before.rules = e.rules := by rw [same]
  have firings : (Operation.step .decoder).firings e = before.commitFirings x.edge true := by
    simp [Operation.firings, Operation.committing?, accepted]
  have performed : (Operation.step .decoder).perform e =
      { (before.commitWith x.edge true).2 with stats } := by
    rw [Operation.perform, stepped]
  generalize (before.commitWith x.edge true).2 = e' at absorbs performed
  refine ⟨?_, ?_, ?_, ?_, ?_, ?_⟩
  all_goals rw [performed]
  · exact absorbs.accepts.withStats stats
  · exact absorbs.settings.trans settings
  · exact absorbs.rules.trans rules
  · rintro d (old | old)
    · rcases (pending d).mp old with rfl | old
      · exact .inr absorbs.committed
      · exact absorbs.kept d (.inl old)
    · exact absorbs.kept d (.inr (order ▸ old))
  · exact firings ▸ absorbs.there
  · intro d known
    rcases absorbs.new d known with (old | old) | rfl | proposed
    · exact .inl (.inl ((pending d).mpr (.inr old)))
    · exact .inl (.inr (order ▸ old))
    · exact .inl (.inl ((pending x.edge).mpr (.inl rfl)))
    · exact .inr (.inr (firings ▸ proposed))

/-- Every operation that makes facts, commits them with matching or asks the policies advances an
engine that accepts. -/
theorem Accepts.advances (accepts : Accepts e) {op : Operation Custom} (chains : op.Chains) :
    Advances e op := by
  cases op with
  | makeEdgeFromValues relation values partition =>
    have coherent := accepts.coherent.perform (.makeEdgeFromValues relation values partition)
    refine ⟨⟨coherent, accepts.accepting.of_eq rfl rfl rfl, accepts.pending⟩, rfl, rfl,
      fun _ known => known, fun f called => ?_, fun _ known => .inl known⟩
    cases called
  | commit id matching =>
    obtain rfl : matching = true := chains
    cases live : e.graph.edges.get? id with
    | none =>
      obtain ⟨same, none⟩ := commitWith_of_dead live true
      refine accepts.advances_of_same none ?_
      rw [Operation.perform, same]
    | some edge =>
      obtain ⟨_, _, absorbs⟩ := accepts.commit live
      refine ⟨absorbs.accepts, absorbs.settings, absorbs.rules, absorbs.kept, absorbs.there,
        fun d known => ?_⟩
      rcases absorbs.new d known with old | rfl | proposed
      · exact .inl old
      · exact .inr (.inl rfl)
      · exact .inr (.inr proposed)
  | step mode =>
    obtain rfl : mode = .decoder := chains
    cases left : e.agenda.isEmpty with
    | true =>
      obtain ⟨none, same⟩ := step_of_isEmpty left .decoder
      exact accepts.advances_of_same (by simp [Operation.firings, Operation.committing?, none]) same
    | false => exact accepts.advances_step left
  | _ => exact chains.elim

/-- Chaining goes on accepting, and everything proposed on the way is known in the end. -/
theorem Accepts.performAll (accepts : Accepts e) {ops : List (Operation Custom)}
    (chains : ∀ op ∈ ops, op.Chains) :
    Accepts (e.performAll ops) ∧ (e.performAll ops).settings = e.settings ∧
      (∀ id, Known e id → Known (e.performAll ops) id) ∧
      ∀ f ∈ e.history ops, ∀ p ∈ f.proposals, Known (e.performAll ops) p.edge := by
  induction ops generalizing e with
  | nil => exact ⟨accepts, rfl, fun _ known => known, by simp [history]⟩
  | cons op rest ih =>
    obtain ⟨chainsFirst, chainsRest⟩ := List.forall_mem_cons.mp chains
    have advances := accepts.advances chainsFirst
    obtain ⟨accepts', settings, kept, there⟩ := ih advances.accepts chainsRest
    refine ⟨accepts', settings.trans advances.settings, ?_, fun f called p proposed => ?_⟩
    · exact fun id known => kept id (advances.kept id known)
    · rcases List.mem_append.mp called with here | later
      · exact kept _ (advances.there f here p proposed)
      · exact there f later p proposed

/-- Chaining adds no rules. -/
theorem Accepts.rules_performAll (accepts : Accepts e) {ops : List (Operation Custom)}
    (chains : ∀ op ∈ ops, op.Chains) : (e.performAll ops).rules = e.rules := by
  induction ops generalizing e with
  | nil => rfl
  | cons op rest ih =>
    obtain ⟨chainsFirst, chainsRest⟩ := List.forall_mem_cons.mp chains
    have advances := accepts.advances chainsFirst
    exact (ih advances.accepts chainsRest).trans advances.rules

theorem Accepts.continues_performAll (accepts : Accepts e) {ops : List (Operation Custom)}
    (chains : ∀ op ∈ ops, op.Chains) : Continues e (e.performAll ops) :=
  accepts.coherent.continues_performAll fun op mem => (chains op mem).isMatching

end Engine

end ScoredChaining
