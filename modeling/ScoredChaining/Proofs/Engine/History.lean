import ScoredChaining.Proofs.Engine.Reachable

/-!
Histories: operations one after the other, and the calls of generators that they make.

* `Operation.firings`: the calls that an operation makes. Only commits with matching make any, be
  they asked for or decided by a step.
* `Engine.Coherent.fires_or_quiet`: an operation matches a new fact against the patterns
  (`Engine.Fires`), or makes no calls (`Engine.Quiet`).
* `Engine.history`: the calls that operations make one after the other.
-/

namespace ScoredChaining

variable {Custom : Type} [Decider Custom]

/-- The fact that an operation asks to commit with matching, and the engine that is to commit it. -/
def Operation.committing? (e : Engine Custom) : Operation Custom → Option (EdgeId × Engine Custom)
  | .commit id true => some (id, e)
  | .step mode => e.accepted? mode
  | _ => none

/-- The calls of generators that an operation makes. -/
def Operation.firings (e : Engine Custom) (op : Operation Custom) : List Firing :=
  match op.committing? e with
  | some (id, e) => e.commitFirings id true
  | none => []

/-- The operation neither forgets facts nor commits them without matching. -/
def Operation.IsMatching : Operation Custom → Prop
  | .commit _ matching => matching = true
  | .clearDocument => False
  | _ => True

instance : DecidablePred (@Operation.IsMatching Custom) := fun op => by
  cases op <;> unfold Operation.IsMatching <;> infer_instance

omit [Decider Custom] in
theorem Operation.IsMatching.keeps {op : Operation Custom} (matching : op.IsMatching) :
    op ≠ .clearDocument := by
  rintro rfl
  exact matching

namespace Engine

/-- The engine after operations. -/
def performAll (e : Engine Custom) (ops : List (Operation Custom)) : Engine Custom :=
  ops.foldl (fun e op => op.perform e) e

/-- The calls of generators that operations make. -/
def history (e : Engine Custom) : List (Operation Custom) → List Firing
  | [] => []
  | op :: rest => op.firings e ++ (op.perform e).history rest

variable {e e' : Engine Custom}

@[simp] theorem performAll_nil (e : Engine Custom) : e.performAll [] = e := rfl

@[simp] theorem performAll_cons (e : Engine Custom) (op : Operation Custom)
    (rest : List (Operation Custom)) :
    e.performAll (op :: rest) = (op.perform e).performAll rest := rfl

@[simp] theorem performAll_append (e : Engine Custom) (ops others : List (Operation Custom)) :
    e.performAll (ops ++ others) = (e.performAll ops).performAll others :=
  List.foldl_append

theorem Reachable.performAll (reachable : Reachable e) (ops : List (Operation Custom)) :
    Reachable (e.performAll ops) := by
  induction ops generalizing e with
  | nil => exact reachable
  | cons op rest ih => exact ih (reachable.next op)

/-! ### What one operation does -/

/-- The operation matches a new fact against the patterns. -/
structure Fires (e : Engine Custom) (op : Operation Custom) (id : EdgeId) (edge : Edge) : Prop where
  live : e.graph.edges.get? id = some edge
  new : e.facts.contains id = false
  /-- The operation asks for the fact, or takes it off the agenda. -/
  asked : op = .commit id true ∨ id ∈ e.agenda.pending
  facts : (op.perform e).facts = (e.facts.add id edge).2
  trie : (op.perform e).trie = e.trie
  rules : (op.perform e).rules = e.rules
  extends_ : e.graph.Extends (op.perform e).graph
  /-- Every call is given a fact for every premise, in a graph between those before and after. -/
  called : ∀ f ∈ op.firings e, f.graph.WellFormed ∧ f.generator.Fed f.graph f.bindings ∧
    e.graph.Extends f.graph ∧ f.answer.2.Extends (op.perform e).graph
  /-- The calls are those of the generators at the ends of the legal walks from the witness. -/
  calls : (op.firings e).map call =
    (e.trie.walks (e.facts.add id edge).2 e.graph (.start (.node edge.head))).flatMap fun walk =>
      walk.2.generators.zipIdx.map fun x => (id, x.1, x.2, bindingsOf walk.1)
  /-- What has become pending was proposed. -/
  pending : ∀ d ∈ (op.perform e).agenda.pending,
    d ∈ e.agenda.pending ∨ ∃ f ∈ op.firings e, ∃ p ∈ f.proposals, p.edge = d
  counted : (op.perform e).stats.firings = e.stats.firings + (op.firings e).length

/-- The operation makes no calls. Unless it forgets the document or commits a fact without matching,
it leaves the facts alone, and nothing becomes pending but what it asks for. -/
structure Quiet (e : Engine Custom) (op : Operation Custom) : Prop where
  firings : op.firings e = []
  facts : op.IsMatching → (op.perform e).facts = e.facts
  pending : ∀ d ∈ (op.perform e).agenda.pending,
    d ∈ e.agenda.pending ∨ ∃ score, op = .addCandidate d score
  counted : op ≠ .clearDocument → (op.perform e).stats.firings = e.stats.firings

theorem Settles.quiet {op : Operation Custom} (firings : op.firings e = [])
    (settles : Settles e (op.perform e)) : Quiet e op :=
  ⟨firings, fun _ => settles.facts, fun d mem => .inl (settles.pending d mem),
    fun _ => settles.firings⟩

/-- Committing a fact with matching, once other effects have settled. -/
theorem Coherent.commit_fires_or_quiet (coherent : e.Coherent) (op : Operation Custom) {id : EdgeId}
    {before : Engine Custom} {stats : RunStats} (settles : Settles e before)
    (asked : op = .commit id true ∨ id ∈ e.agenda.pending)
    (committing : op.committing? e = some (id, before))
    (after : op.perform e = { (before.commitWith id true).2 with stats })
    (counted : stats.firings = (before.commitWith id true).2.stats.firings) :
    (∃ edge, Fires e op id edge) ∨ Quiet e op := by
  have firings : op.firings e = before.commitFirings id true := by
    simp [Operation.firings, committing]
  have kept : (before.commitWith id true).2 = before → before.commitFirings id true = [] →
      Quiet e op := by
    intro same none
    rw [same] at after counted
    refine ⟨firings.trans none, fun _ => ?_, fun d mem => ?_, fun _ => ?_⟩
    · rw [after]
      exact settles.facts
    · rw [after] at mem
      exact .inl (settles.pending d mem)
    · rw [after]
      exact counted.trans settles.firings
  cases live : before.graph.edges.get? id with
  | none =>
    obtain ⟨same, none⟩ := commitWith_of_dead live true
    exact .inr (kept (by rw [same]) none)
  | some edge =>
    cases known : before.facts.contains id with
    | true =>
      obtain ⟨same, none⟩ := commitWith_of_contains live known true
      exact .inr (kept (by rw [same]) none)
    | false =>
      obtain ⟨_, effects, _, calls⟩ := (coherent.of_settles settles).commit_effects live known
      rw [record_of_new known] at effects
      have frame := effects.frame
      refine .inl ⟨edge, settles.graph ▸ live, settles.facts ▸ known, asked, ?_, ?_, ?_, ?_, ?_, ?_,
        ?_, ?_⟩
      · rw [after]
        exact frame.facts.trans (by rw [← settles.facts])
      · rw [after]
        exact frame.trie.trans settles.trie
      · rw [after]
        exact frame.rules.trans settles.rules
      · rw [after, ← settles.graph]
        exact frame.grows.extends_
      · rw [after, firings, ← settles.graph]
        exact effects.called
      · rw [firings, calls, settles.trie, settles.facts, settles.graph]
      · rw [after, firings]
        exact fun d mem => (effects.pending d mem).imp_left (settles.pending d)
      · rw [after, firings, ← settles.firings]
        exact counted.trans effects.counted

/-- An operation matches a new fact against the patterns, or makes no calls. -/
theorem Coherent.fires_or_quiet (coherent : e.Coherent) (op : Operation Custom) :
    (∃ id edge, Fires e op id edge) ∨ Quiet e op := by
  cases op with
  | commit id matching =>
    cases matching with
    | true =>
      exact (coherent.commit_fires_or_quiet (.commit id true) (.refl coherent.agenda) (.inl rfl) rfl
        rfl rfl).imp_left fun fires => ⟨id, fires⟩
    | false =>
      have kept : (e.commitWith id false).2.agenda = e.agenda ∧
          (e.commitWith id false).2.stats = e.stats := by
        cases live : e.graph.edges.get? id with
        | none => rw [(commitWith_of_dead live false).1]; exact ⟨rfl, rfl⟩
        | some edge =>
          cases known : e.facts.contains id with
          | true => rw [(commitWith_of_contains live known false).1]; exact ⟨rfl, rfl⟩
          | false => rw [(commitWith_quietly live known).1, record_of_new known]; exact ⟨rfl, rfl⟩
      refine .inr ⟨rfl, fun matching => ?_, fun d mem => ?_, fun _ => ?_⟩
      · cases matching
      · exact .inl (kept.1 ▸ mem)
      · exact congrArg RunStats.firings kept.2
  | step mode =>
    rcases step_cases coherent.agenda mode with
      ⟨none, settles⟩ | ⟨id, before, stats, accepted, settles, pending, same, counted⟩
    · exact .inr (settles.quiet
        (by simp [Operation.firings, Operation.committing?, none]))
    · exact (coherent.commit_fires_or_quiet (.step mode) settles (.inr pending) accepted same
        counted).imp_left fun fires => ⟨id, fires⟩
  | clearDocument =>
    refine .inr ⟨rfl, False.elim, fun d mem => ?_, fun other => absurd rfl other⟩
    exact .inl ((clearAgenda_settles e).pending d mem)
  | addRule rule scorer =>
    have kept : (e.addRule rule scorer).2.facts = e.facts ∧
        (e.addRule rule scorer).2.agenda = e.agenda ∧
        (e.addRule rule scorer).2.stats = e.stats := by
      rw [Engine.addRule]
      split <;> exact ⟨rfl, rfl, rfl⟩
    exact .inr ⟨rfl, fun _ => kept.1, fun d mem => .inl (kept.2.1 ▸ mem), fun _ =>
      congrArg RunStats.firings kept.2.2⟩
  | addCandidate id score =>
    have kept : (e.addCandidate id score).2.facts = e.facts ∧
        (∀ d ∈ (e.addCandidate id score).2.agenda.pending, d ∈ e.agenda.pending ∨ d = id) ∧
        (e.addCandidate id score).2.stats.firings = e.stats.firings := by
      cases live : e.graph.edges.get? id with
      | none =>
        have settles := addCandidate_of_dead coherent.agenda live score
        exact ⟨settles.facts, fun d mem => .inl (settles.pending d mem), settles.firings⟩
      | some edge =>
        obtain ⟨_, _, proposes⟩ := addCandidate_spec coherent.agenda live score
        refine ⟨by rw [proposes.others], fun d mem => ?_, proposes.firings⟩
        obtain ⟨x, memX, rfl⟩ := List.mem_map.mp mem
        rcases proposes.new x memX with old | ⟨p, memP, same, _⟩
        · exact .inl (mem_pending_of_mem old)
        · obtain rfl := List.mem_singleton.mp memP
          exact .inr same
    refine .inr ⟨rfl, fun _ => kept.1, fun d mem => ?_, fun _ => kept.2.2⟩
    exact (kept.2.1 d mem).imp_right fun same => ⟨score, by rw [same]⟩
  | setPriority priority =>
    exact .inr ((setPriority_settles coherent.agenda priority).quiet rfl)
  | clearAgenda => exact .inr ((clearAgenda_settles e).quiet rfl)
  | addGold id => exact .inr ((addGold_settles coherent.agenda id).quiet rfl)
  | _ => exact .inr ⟨rfl, fun _ => rfl, fun _ mem => .inl mem, fun _ => rfl⟩

/-! ### The calls for one fact -/

namespace Fires

variable {op : Operation Custom} {id : EdgeId} {edge : Edge}

/-- The fact is the last one committed. -/
theorem order (fires : Fires e op id edge) :
    (op.perform e).facts.order = e.facts.order ++ [id] := by
  rw [fires.facts, FactBase.order_add fires.new]

theorem committed (fires : Fires e op id edge) : (op.perform e).facts.edge? id = some edge := by
  rw [fires.facts, FactBase.edge?_add fires.new, if_pos rfl]

/-- What is committed then was live before. -/
theorem live_of_committed (fires : Fires e op id edge) (coherent : e.Coherent) (d : EdgeId)
    (x : Edge) (found : (op.perform e).facts.edge? d = some x) : e.graph.edges.get? d = some x := by
  have recorded := coherent.record fires.live
  rw [record_of_new fires.new] at recorded
  rw [fires.facts] at found
  exact recorded.committed d x found

/-- The calls are those of the generators that legal walks from the witness lead to. -/
theorem mem_calls_iff (fires : Fires e op id edge) {d : EdgeId} {r : RuleGenerator} {slot : Nat}
    {bindings : List Binding} : (d, r, slot, bindings) ∈ (op.firings e).map call ↔
      d = id ∧ ∃ moves, LegalWalk (e.facts.add id edge).2 e.graph (.node edge.head) moves ∧
        (e.trie.generatorsAt (pathOf moves))[slot]? = some r ∧ bindings = bindingsOf moves := by
  rw [fires.calls, List.mem_flatMap]
  constructor
  · rintro ⟨⟨moves, a⟩, listed, mem⟩
    obtain ⟨⟨_, _⟩, atSlot, same⟩ := List.mem_map.mp mem
    obtain ⟨legal, found⟩ := Trie.mem_walks_iff.mp listed
    cases same
    refine ⟨rfl, moves, legal, ?_, rfl⟩
    rw [Trie.generatorsAt_of_actionsAt? found]
    exact List.mk_mem_zipIdx_iff_getElem?.mp atSlot
  · rintro ⟨rfl, moves, legal, at_, rfl⟩
    obtain ⟨a, found, atSlot⟩ := Trie.exists_actionsAt? at_
    exact ⟨(moves, a), Trie.mem_walks_iff.mpr ⟨legal, found⟩,
      List.mem_map.mpr ⟨(r, slot), List.mk_mem_zipIdx_iff_getElem?.mpr atSlot, rfl⟩⟩

/-- Every call is for a legal walk that leads to its generator. -/
theorem exists_walk (fires : Fires e op id edge) {f : Firing} (mem : f ∈ op.firings e) :
    f.fact = id ∧ ∃ moves, LegalWalk (e.facts.add id edge).2 e.graph (.node edge.head) moves ∧
      (e.trie.generatorsAt (pathOf moves))[f.slot]? = some f.generator ∧
      f.bindings = bindingsOf moves :=
  fires.mem_calls_iff.mp (List.mem_map_of_mem mem)

end Fires

/-- What tells the calls for one fact apart: the place of the generator, and the facts that it is
given. -/
def place (f : Firing) : List Key × Nat × List EdgeId :=
  (f.generator.path.keys, f.slot, RuleGenerator.boundEdges f.bindings)

/-- No generator is given the same facts in two calls for one fact. -/
theorem Coherent.nodup_places (coherent : e.Coherent) {op : Operation Custom} {id : EdgeId}
    {edge : Edge} (fires : Fires e op id edge) : ((op.firings e).map place).Nodup := by
  have indexed := coherent.facts.add id edge
  have nodup := e.trie.nodup_walks (g := e.graph) indexed.nodup_neighbors
    (.start (.node edge.head))
  have places : (op.firings e).map place =
      ((op.firings e).map call).map fun c =>
        (c.2.1.path.keys, c.2.2.1, RuleGenerator.boundEdges c.2.2.2) := by
    rw [List.map_map]
    rfl
  rw [places, fires.calls, List.map_flatMap, List.nodup_flatMap]
  constructor
  · intro walk _
    have slots : (walk.2.generators.zipIdx.map Prod.snd).Nodup := by
      rw [List.zipIdx_map_snd]
      exact List.nodup_range'
    refine .of_map (fun x : List Key × Nat × List EdgeId => x.2.1) ?_
    rw [List.map_map, List.map_map]
    exact slots
  · refine nodup.imp_of_mem fun {walk other} listed listed' different => ?_
    intro x mem mem'
    obtain ⟨_, memC, rfl⟩ := List.mem_map.mp mem
    obtain ⟨⟨r, slot⟩, atSlot, rfl⟩ := List.mem_map.mp memC
    obtain ⟨_, memC', same⟩ := List.mem_map.mp mem'
    obtain ⟨⟨r', slot'⟩, atSlot', rfl⟩ := List.mem_map.mp memC'
    obtain ⟨⟨_, run⟩, found⟩ := Trie.mem_walks_iff.mp listed
    obtain ⟨⟨_, run'⟩, found'⟩ := Trie.mem_walks_iff.mp listed'
    have stands := List.fst_mem_of_mem_zipIdx atSlot
    have stands' := List.fst_mem_of_mem_zipIdx atSlot'
    rw [← Trie.generatorsAt_of_actionsAt? found] at stands
    rw [← Trie.generatorsAt_of_actionsAt? found'] at stands'
    have along := (coherent.attached _ r stands).2.2
    have along' := (coherent.attached _ r' stands').2.2
    simp only [Prod.mk.injEq, run.follows.boundEdges_eq, run'.follows.boundEdges_eq, along,
      along'] at same
    have moves := run.follows.eq_of_boundFacts run'.follows same.1.symm same.2.2.symm
    have actions : walk.2 = other.2 := by
      rw [← moves] at found'
      exact Option.some.inj (found.symm.trans found')
    exact different (Prod.ext moves actions)

/-! ### What stays -/

/-- The second engine has what the first has, and generators and facts stand in the same places. -/
structure Continues (e e' : Engine Custom) : Prop where
  graph : e.graph.Extends e'.graph
  facts : e.facts.Extends e'.facts
  generators : ∀ path, e.trie.generatorsAt path <+: e'.trie.generatorsAt path

namespace Continues

variable {e'' : Engine Custom}

theorem refl (e : Engine Custom) : Continues e e :=
  ⟨.refl _, .refl _, fun _ => List.prefix_rfl⟩

theorem trans (first : Continues e e') (second : Continues e' e'') : Continues e e'' :=
  ⟨first.graph.trans second.graph, first.facts.trans second.facts, fun path =>
    (first.generators path).trans (second.generators path)⟩

theorem of_frame (frame : Frame e e') : Continues e e' :=
  ⟨frame.grows.extends_, frame.facts ▸ .refl _, fun _ => frame.trie ▸ List.prefix_rfl⟩

theorem of_settles (settles : Settles e e') : Continues e e' :=
  ⟨settles.graph ▸ .refl _, settles.facts ▸ .refl _, fun _ => settles.trie ▸ List.prefix_rfl⟩

/-- A generator keeps its slot. -/
theorem generator (continues_ : Continues e e') {path : List Key} {slot : Nat} {r : RuleGenerator}
    (held : (e.trie.generatorsAt path)[slot]? = some r) :
    (e'.trie.generatorsAt path)[slot]? = some r := by
  obtain ⟨bound, _⟩ := List.getElem?_eq_some_iff.mp held
  obtain ⟨others, split⟩ := continues_.generators path
  rw [← split, List.getElem?_append_left bound, held]

theorem of_graph {g : Graph} {decisions : Dispatch Custom} (extends_ : e.graph.Extends g) :
    Continues e { e with graph := g, decisions } :=
  ⟨extends_, .refl _, fun _ => List.prefix_rfl⟩

end Continues

theorem Coherent.continues_commitWith (coherent : e.Coherent) (id : EdgeId) (matching : Bool) :
    Continues e (e.commitWith id matching).2 := by
  cases live : e.graph.edges.get? id with
  | none =>
    rw [(commitWith_of_dead live matching).1]
    exact .refl e
  | some edge =>
    cases known : e.facts.contains id with
    | true =>
      rw [(commitWith_of_contains live known matching).1]
      exact .refl e
    | false =>
      have recorded : Continues e (e.record id edge).2 := by
        rw [record_of_new known]
        exact ⟨.refl _, e.facts.extends_add id edge, fun _ => List.prefix_rfl⟩
      cases matching with
      | true => exact recorded.trans (.of_frame (coherent.commit_effects live known).2.1.frame)
      | false => rwa [(commitWith_quietly live known).1]

/-- Only forgetting a document takes anything away. -/
theorem Coherent.continues_perform (coherent : e.Coherent) {op : Operation Custom}
    (keeps : op ≠ .clearDocument) : Continues e (op.perform e) := by
  have wf := coherent.graph
  cases op with
  | internType name => exact .of_graph (wf.withSchema (wf.schema.internType name)
      (Schema.internType_extends _ name)).2
  | declare name types => exact .of_graph (wf.withSchema (wf.schema.declareByNames name types)
      (Schema.declareByNames_extends _ name types)).2
  | internNode type value partition =>
    exact .of_graph (Graph.internNode_spec wf type value partition).1.extends_
  | lookupNode type value create =>
    exact .of_graph (Graph.lookupNode_grows wf type value create .temporary).extends_
  | makeEdge relation tail partition =>
    exact .of_graph (Graph.makeEdge_spec wf relation tail partition).1.extends_
  | makeEdgeFromValues relation values partition =>
    exact .of_graph (Graph.makeEdgeFromValues_spec wf relation values partition).1.extends_
  | addRule rule scorer =>
    obtain ⟨extends_, wellFormed⟩ := rule.compile_schema e.graph.schema
    have grown := (wf.withSchema (wellFormed wf.schema) extends_).2
    simp only [Operation.perform, Engine.addRule]
    generalize rule.compile e.graph.schema = answer at grown
    obtain ⟨_ | compiled, s⟩ := answer
    · exact .of_graph grown
    · refine ⟨grown, .refl _, ?_⟩
      intro path
      simp only [generatorsAt_attach coherent.trie]
      exact List.prefix_append _ _
  | addFactor relation factor =>
    refine ⟨.refl _, .refl _, ?_⟩
    intro path
    simp only [Operation.perform, Engine.addFactor, Trie.generatorsAt_addFactor coherent.trie]
    exact List.prefix_rfl
  | setFallback policy => exact .of_graph (.refl e.graph)
  | addPolicy relation policy => exact .of_graph (.refl e.graph)
  | addCandidate id score =>
    cases live : e.graph.edges.get? id with
    | none => exact .of_settles (addCandidate_of_dead coherent.agenda live score)
    | some edge =>
      obtain ⟨_, _, proposes⟩ := addCandidate_spec coherent.agenda live score
      rw [Operation.perform, proposes.others]
      exact ⟨.refl _, .refl _, fun _ => List.prefix_rfl⟩
  | commit id matching => exact coherent.continues_commitWith id matching
  | step mode =>
    rcases step_cases coherent.agenda mode with
      ⟨_, settles⟩ | ⟨id, before, stats, _, settles, _, same, _⟩
    · exact .of_settles settles
    · rw [Operation.perform, same]
      have committed := (coherent.of_settles settles).continues_commitWith id true
      exact (Continues.of_settles settles).trans
        ⟨committed.graph, committed.facts, committed.generators⟩
  | setPriority priority => exact .of_settles (setPriority_settles coherent.agenda priority)
  | addGold id => exact .of_settles (addGold_settles coherent.agenda id)
  | clearAgenda => exact .of_settles (clearAgenda_settles e)
  | clearDocument => exact absurd rfl keeps

/-! ### Histories -/

theorem Coherent.performAll (coherent : e.Coherent) (ops : List (Operation Custom)) :
    (e.performAll ops).Coherent := by
  induction ops generalizing e with
  | nil => exact coherent
  | cons op rest ih => exact ih (coherent.perform op)

theorem Coherent.continues_performAll (coherent : e.Coherent) {ops : List (Operation Custom)}
    (matching : ∀ op ∈ ops, op.IsMatching) : Continues e (e.performAll ops) := by
  induction ops generalizing e with
  | nil => exact .refl e
  | cons op rest ih =>
    obtain ⟨matchingFirst, matchingRest⟩ := List.forall_mem_cons.mp matching
    exact (coherent.continues_perform matchingFirst.keeps).trans
      (ih (coherent.perform op) matchingRest)

theorem Coherent.continues_after (coherent : e.Coherent) {done rest : List (Operation Custom)}
    {op : Operation Custom} (matching : ∀ op' ∈ done ++ op :: rest, op'.IsMatching) :
    Continues (op.perform (e.performAll done)) (e.performAll (done ++ op :: rest)) := by
  rw [performAll_append, performAll_cons]
  apply ((coherent.performAll done).perform op).continues_performAll
  intro op' mem
  exact matching op' (List.mem_append_right _ (List.mem_cons_of_mem _ mem))

theorem exists_op_of_mem_history {ops : List (Operation Custom)} {f : Firing}
    (mem : f ∈ e.history ops) :
    ∃ before op after, ops = before ++ op :: after ∧ f ∈ op.firings (e.performAll before) := by
  induction ops generalizing e with
  | nil => cases mem
  | cons op rest ih =>
    rcases List.mem_append.mp mem with here | later
    · exact ⟨[], op, rest, rfl, here⟩
    · obtain ⟨before, op', after, rfl, called⟩ := ih later
      exact ⟨op :: before, op', after, rfl, called⟩

theorem mem_history_of_op {before after : List (Operation Custom)} {op : Operation Custom}
    {f : Firing}
    (called : f ∈ op.firings (e.performAll before)) : f ∈ e.history (before ++ op :: after) := by
  induction before generalizing e with
  | nil => exact List.mem_append_left _ called
  | cons first rest ih => exact List.mem_append_right _ (ih called)

/-- A call is made by an operation that matches a new fact. -/
theorem Coherent.fires_of_mem (coherent : e.Coherent) {op : Operation Custom} {f : Firing}
    (called : f ∈ op.firings e) : ∃ edge, Fires e op f.fact edge := by
  rcases coherent.fires_or_quiet op with ⟨id, edge, fires⟩ | quiet
  · obtain ⟨rfl, _⟩ := fires.exists_walk called
    exact ⟨edge, fires⟩
  · rw [quiet.firings] at called
    cases called

/-- Every fact that is new after matching operations was matched by one of them. -/
theorem Coherent.exists_fires (coherent : e.Coherent) {ops : List (Operation Custom)}
    (matching : ∀ op ∈ ops, op.IsMatching) {id : EdgeId} (new : id ∉ e.facts.order)
    (committed : id ∈ (e.performAll ops).facts.order) :
    ∃ before op after edge, ops = before ++ op :: after ∧
      Fires (e.performAll before) op id edge := by
  induction ops generalizing e with
  | nil => exact absurd committed new
  | cons op rest ih =>
    obtain ⟨matchingFirst, matchingRest⟩ := List.forall_mem_cons.mp matching
    by_cases known : id ∈ (op.perform e).facts.order
    · rcases coherent.fires_or_quiet op with ⟨d, edge, fires⟩ | quiet
      · rw [fires.order] at known
        obtain rfl : id = d := by simpa [new] using known
        exact ⟨[], op, rest, edge, rfl, fires⟩
      · rw [quiet.facts matchingFirst] at known
        exact absurd known new
    · obtain ⟨before, op', after, edge, rfl, fires⟩ :=
        ih (coherent.perform op) matchingRest known committed
      exact ⟨op :: before, op', after, edge, rfl, fires⟩

/-- In matching operations one after the other, no generator is given the same facts twice for one
fact, and no fact that was committed before is matched again. -/
theorem Coherent.nodup_history (coherent : e.Coherent) {ops : List (Operation Custom)}
    (matching : ∀ op ∈ ops, op.IsMatching) :
    ((e.history ops).map fun f => (f.fact, place f)).Nodup ∧
      ∀ f ∈ e.history ops, f.fact ∉ e.facts.order := by
  induction ops generalizing e with
  | nil => exact ⟨.nil, by simp [history]⟩
  | cons op rest ih =>
    obtain ⟨matchingFirst, matchingRest⟩ := List.forall_mem_cons.mp matching
    obtain ⟨nodup, later⟩ := ih (coherent.perform op) matchingRest
    have before := (coherent.continues_perform matchingFirst.keeps).facts.order.subset
    rcases coherent.fires_or_quiet op with ⟨id, edge, fires⟩ | quiet
    · have isFact : ∀ f ∈ op.firings e, f.fact = id := fun f mem => (fires.exists_walk mem).1
      have here : id ∈ (op.perform e).facts.order := by
        rw [fires.order]
        exact List.mem_append_right _ (List.mem_singleton_self id)
      have new : id ∉ e.facts.order := coherent.facts.not_mem_order fires.new
      rw [history, List.map_append]
      refine ⟨List.nodup_append.mpr ⟨?_, nodup, ?_⟩, fun f mem => ?_⟩
      · refine .of_map Prod.snd ?_
        rw [List.map_map]
        exact coherent.nodup_places fires
      · rintro _ memA _ memB rfl
        obtain ⟨f, memF, rfl⟩ := List.mem_map.mp memA
        obtain ⟨f', memF', same⟩ := List.mem_map.mp memB
        have sameFact : f'.fact = f.fact := (Prod.mk.inj same).1
        exact later f' memF' (sameFact ▸ isFact f memF ▸ here)
      · rcases List.mem_append.mp mem with first | rest
        · exact isFact f first ▸ new
        · exact fun old => later f rest (before old)
    · rw [history, quiet.firings, List.nil_append]
      exact ⟨nodup, fun f mem old => later f mem (before old)⟩

/-! ### A chain of links -/

/-- Two links in a row are a path. -/
def chainRule : Rule :=
  ⟨[⟨"link", none, [.var "x", .var "y"]⟩, ⟨"link", none, [.var "y", .var "z"]⟩],
    ⟨"path", none, [.var "x", .var "z"]⟩, none⟩

/-- An engine with links between points. -/
def linkable : Engine :=
  performAll .usual [.declare "link" ["point", "point"]]

theorem reachable_linkable : Reachable linkable :=
  (Reachable.start .usual .byScore).performAll _

/-- Links from 1 to 2 and from 2 to 3, the first of which is committed. -/
def links : List Operation :=
  [.makeEdgeFromValues ⟨0⟩ [.int 1, .int 2] .temporary,
    .makeEdgeFromValues ⟨0⟩ [.int 2, .int 3] .temporary, .commit ⟨.temporary, 0⟩ true]

/-- An engine with that rule and these links. -/
def chained : Engine :=
  (linkable.addRule chainRule (.constant 1.0)).2.performAll links

theorem reachable_chained : Reachable chained :=
  (reachable_linkable.next (.addRule chainRule (.constant 1.0))).performAll links

end Engine

end ScoredChaining
