import ScoredChaining.Proofs.Agenda.Contents
import ScoredChaining.Proofs.Engine.Agreement
import ScoredChaining.Proofs.Engine.Verdicts
import ScoredChaining.Proofs.Factor.Rescoring

/-!
What an exclusion leaves of the rivals of a committed fact.

The exclusion is applied once, when the fact is committed, and takes the rivals off the agenda that
are pending then. Patterns that the fact completes beyond its own vertex take effect after it, so
their rules can propose rivals again, and so can rules that later commits fire.

* `Factor.exclusion_clears`: no rival is pending after an exclusion.
* `Engine.Coherent.rivals_of_commit`: the rivals that are pending after a commit were proposed by
  patterns that go on.
* `Engine.Excluded`: what commits and steps keep. Rivals of committed facts that are pending, or were
  committed later, were proposed after the exclusions for these facts.
* `Engine.Reachable.exclusion_kept`: of two rivals in the fact base after a run, the later one was
  proposed after the exclusion for the other.
-/

namespace ScoredChaining

variable {Custom : Type} [Decider Custom]

/-! ### Rivals -/

/-- Two facts of the relation that agree on the arguments. -/
structure Rivals (relation : RelationId) (keyArgs : List Nat) (edge other : Edge) : Prop where
  first : edge.relation = relation
  second : other.relation = relation
  same : ∀ k ∈ keyArgs, other.tail[k]? = edge.tail[k]?

theorem Rivals.symm {relation : RelationId} {keyArgs : List Nat} {edge other : Edge}
    (rivals : Rivals relation keyArgs edge other) : Rivals relation keyArgs other edge :=
  ⟨rivals.second, rivals.first, fun k mem => (rivals.same k mem).symm⟩

namespace Factor

variable {a : Agenda} {g : Graph} {p : Priority} {keyArgs : List Nat} {fact : Edge}

/-- No rival of the fact is pending after an exclusion. -/
theorem exclusion_clears (agrees : a.Agrees g p) {bindings : List Binding}
    (committed : committed? bindings g = some fact) (nonempty : keyArgs ≠ [])
    (inRange : ∀ k ∈ keyArgs, k < fact.tail.length) :
    ∀ id ∈ ((Factor.exclusion keyArgs).rescore bindings g p a).2.pending, ∀ other,
      g.edges.get? id = some other → ¬ Rivals fact.relation keyArgs fact other := by
  intro id pending other live rivals
  obtain ⟨anchor, others, keyed⟩ := exists_anchor nonempty fun k mem => by
    simpa using inRange k mem
  obtain ⟨_, _, perm⟩ :=
    rescore_exclusion_spec (p := p) agrees.valid.sound agrees.live committed keyed
  obtain ⟨x, left, rfl⟩ := List.mem_map.mp pending
  have rival : isRival fact.relation (anchor :: others) g x.edge = true :=
    isRival_eq_true_iff.mpr ⟨other, Graph.edge_eq_ok_iff.mpr live,
      (agrees_iff keyed).mpr ⟨rivals.second, rivals.same⟩⟩
  have stays := (List.mem_filter.mp (perm.mem_iff.mp left)).2
  simp [rival] at stays

end Factor

namespace Engine

variable {e e' : Engine Custom} {id : EdgeId} {edge : Edge} {relation : RelationId}
  {keyArgs : List Nat}

/-- No pending candidate is a rival of the fact. -/
def Unrivalled (e : Engine Custom) (relation : RelationId) (keyArgs : List Nat) (edge : Edge) :
    Prop :=
  ∀ id ∈ e.agenda.pending, ∀ other, e.graph.edges.get? id = some other →
    ¬ Rivals relation keyArgs edge other

/-! ### Effects -/

/-- A rival that is pending after effects was proposed by them, if none was pending before. -/
theorem Unrivalled.proposed (unrivalled : Unrivalled e relation keyArgs edge)
    (coherent : e.Coherent) {calls : List Firing} {answer : Except EngineError Unit × Engine Custom}
    (effects : Effects e calls answer) {other : Edge} (pending : id ∈ answer.2.agenda.pending)
    (live : answer.2.graph.edges.get? id = some other)
    (rivals : Rivals relation keyArgs edge other) :
    ∃ f ∈ calls, ∃ p ∈ f.proposals, p.edge = id := by
  refine (effects.pending id pending).resolve_left fun old => ?_
  obtain ⟨other', live'⟩ := coherent.pending id old
  have kept := effects.frame.grows.extends_.edges _ _ live'
  obtain rfl := Option.some.inj (kept.symm.trans live)
  exact unrivalled id old other' live' rivals

/-- What completed the pattern is this fact, also when the graph has grown. -/
def Witnesses (e : Engine Custom) (bindings : List Binding) (edge : Edge) : Prop :=
  ∀ g, e.graph.Extends g → Factor.committed? bindings g = some edge

theorem Witnesses.mono {bindings : List Binding} (witnesses : Witnesses e bindings edge)
    (extends_ : e.graph.Extends e'.graph) : Witnesses e' bindings edge := fun g further =>
  witnesses g (extends_.trans further)

/-- The factors of a completed pattern, an exclusion among them, leave no rival. -/
theorem Coherent.unrivalled_runFactors (coherent : e.Coherent) (agrees : e.Agrees)
    {bindings : List Binding} (witnesses : Witnesses e bindings edge) (nonempty : keyArgs ≠ [])
    (inRange : ∀ k ∈ keyArgs, k < edge.tail.length) {factors : List Factor}
    (excludes : .exclusion keyArgs ∈ factors) :
    Unrivalled (runFactors bindings factors e).2 edge.relation keyArgs edge := by
  induction factors generalizing e with
  | nil => cases excludes
  | cons f rest ih =>
    obtain ⟨applied, linked, subset⟩ := f.rescore_spec bindings e.graph e.priority coherent.agenda
    have agreesAfter := Factor.agrees_rescore agrees.agenda f bindings
    have cleared : f = .exclusion keyArgs → ∀ id ∈
        (f.rescore bindings e.graph e.priority e.agenda).2.pending, ∀ other,
          e.graph.edges.get? id = some other → ¬ Rivals edge.relation keyArgs edge other := by
      rintro rfl
      exact Factor.exclusion_clears agrees.agenda (witnesses e.graph (.refl _)) nonempty inRange
    rw [runFactors]
    generalize f.rescore bindings e.graph e.priority e.agenda = answer
      at applied linked subset agreesAfter cleared
    obtain ⟨result, agenda⟩ := answer
    obtain rfl : result = .ok () := applied
    have coherent' : Coherent { e with agenda } := coherent.of_frame ⟨.refl coherent.graph, rfl⟩
      linked fun id mem => coherent.pending id (subset id mem)
    rcases List.mem_cons.mp excludes with isFirst | later
    · have unrivalled : Unrivalled { e with agenda } edge.relation keyArgs edge :=
        cleared isFirst.symm
      intro id pending other live rivals
      have effects : Effects { e with agenda } [] (runFactors bindings rest { e with agenda }) :=
        runFactors_effects coherent' rest
      obtain ⟨_, none, _⟩ := unrivalled.proposed coherent' effects pending live rivals
      cases none
    · exact ih coherent' ⟨agrees.graph, agreesAfter⟩ witnesses later

/-- So does the completed pattern, whatever its generators propose. -/
theorem Coherent.unrivalled_runMatch (fact : EdgeId) (coherent : e.Coherent) (agrees : e.Agrees)
    {m : Match RuleGenerator Factor} (fed : ∀ r ∈ m.actions.generators, r.Fed e.graph m.bindings)
    (witnesses : Witnesses e m.bindings edge) (nonempty : keyArgs ≠ [])
    (inRange : ∀ k ∈ keyArgs, k < edge.tail.length)
    (excludes : .exclusion keyArgs ∈ m.actions.factors) :
    Unrivalled (runMatch m e).2 edge.relation keyArgs edge := by
  obtain ⟨effects, _, _⟩ := runGenerators_effects fact coherent 0 fed
  have agreesAfter := agrees.runGenerators m.bindings m.actions.generators
  have ok := effects.ok
  rw [runMatch]
  generalize runGenerators m.bindings m.actions.generators e = answer at effects agreesAfter ok
  obtain ⟨result, e'⟩ := answer
  obtain rfl : result = .ok () := ok
  exact effects.coherent.unrivalled_runFactors agreesAfter
    (witnesses.mono effects.frame.grows.extends_) nonempty inRange excludes

/-- A call that patterns make is made for the fact, and its generator is one of a pattern. -/
theorem exists_match_of_called {fact : EdgeId} {found : List (Match RuleGenerator Factor)}
    {calls : List Firing}
    (same : calls.map call = found.flatMap fun m =>
      m.actions.generators.zipIdx.map fun x => (fact, x.1, x.2, m.bindings))
    {f : Firing} (called : f ∈ calls) :
    f.fact = fact ∧ ∃ m ∈ found, f.generator ∈ m.actions.generators := by
  have listed := List.mem_map_of_mem (f := call) called
  rw [same, List.mem_flatMap] at listed
  obtain ⟨m, mem, inMatch⟩ := listed
  obtain ⟨x, memX, isCall⟩ := List.mem_map.mp inMatch
  have isFact : fact = f.fact := congrArg Prod.fst isCall
  have isGenerator : x.1 = f.generator := congrArg (fun c => c.2.1) isCall
  exact ⟨isFact.symm, m, mem, isGenerator ▸ List.fst_mem_of_mem_zipIdx memX⟩

/-- A rival that is pending after all patterns have taken effect was proposed by another one than
that which excludes. -/
theorem Coherent.rivals_of_runMatches (coherent : e.Coherent) (agrees : e.Agrees)
    {walks : List (List Move × Actions RuleGenerator Factor)} (nodup : walks.Nodup)
    (fed : ∀ walk ∈ walks, ∀ r ∈ walk.2.generators, r.Fed e.graph (bindingsOf walk.1))
    {walk : List Move × Actions RuleGenerator Factor} (listed : walk ∈ walks)
    (witnesses : Witnesses e (bindingsOf walk.1) edge) (nonempty : keyArgs ≠ [])
    (inRange : ∀ k ∈ keyArgs, k < edge.tail.length)
    (excludes : .exclusion keyArgs ∈ walk.2.factors) (fact : EdgeId) {other : Edge}
    (pending : id ∈ (runMatches (walks.map matchOf) e).2.agenda.pending)
    (live : (runMatches (walks.map matchOf) e).2.graph.edges.get? id = some other)
    (rivals : Rivals edge.relation keyArgs edge other) :
    ∃ f ∈ matchFirings fact (walks.map matchOf) e,
      (∃ walk' ∈ walks, walk' ≠ walk ∧ f.generator ∈ walk'.2.generators) ∧
        ∃ p ∈ f.proposals, p.edge = id := by
  induction walks generalizing e with
  | nil => cases listed
  | cons first rest ih =>
    obtain ⟨fedFirst, fedRest⟩ := List.forall_mem_cons.mp fed
    obtain ⟨fresh, nodupRest⟩ := List.nodup_cons.mp nodup
    obtain ⟨effects, _⟩ := runMatch_effects fact coherent (m := matchOf first) fedFirst
    have agreesAfter := agrees.runMatch (matchOf first)
    have clears : first = walk → Unrivalled (runMatch (matchOf first) e).2 edge.relation keyArgs
        edge := by
      rintro rfl
      exact coherent.unrivalled_runMatch fact agrees (m := matchOf first) fedFirst witnesses
        nonempty inRange excludes
    have ok := effects.ok
    simp only [List.map_cons, runMatches, matchFirings] at pending live ⊢
    generalize runMatch (matchOf first) e = answer at effects agreesAfter clears ok pending live ⊢
    obtain ⟨result, e'⟩ := answer
    obtain rfl : result = .ok () := ok
    have extends_ := effects.frame.grows.extends_
    have fed' : ∀ walk ∈ rest, ∀ r ∈ walk.2.generators, r.Fed e'.graph (bindingsOf walk.1) :=
      fun walk mem r memR => (fedRest walk mem r memR).mono extends_
    rcases List.mem_cons.mp listed with rfl | later
    · have fedRest' : ∀ m ∈ rest.map matchOf, ∀ r ∈ m.actions.generators,
          r.Fed e'.graph m.bindings := by
        intro m mem r memR
        obtain ⟨walk', mem', rfl⟩ := List.mem_map.mp mem
        exact fed' walk' mem' r memR
      obtain ⟨effectsRest, _, calls⟩ := runMatches_effects fact effects.coherent fedRest'
      obtain ⟨f, called, proposes⟩ := (clears rfl).proposed effects.coherent effectsRest pending
        live rivals
      obtain ⟨_, m, memM, generator⟩ := exists_match_of_called calls called
      obtain ⟨walk', mem', rfl⟩ := List.mem_map.mp memM
      exact ⟨f, List.mem_append_right _ called,
        ⟨walk', List.mem_cons_of_mem _ mem', fun isSame => fresh (isSame ▸ mem'), generator⟩,
        proposes⟩
    · obtain ⟨f, called, ⟨walk', mem', different, generator⟩, proposes⟩ :=
        ih effects.coherent agreesAfter nodupRest fed' later (witnesses.mono extends_) pending live
      exact ⟨f, List.mem_append_right _ called,
        ⟨walk', List.mem_cons_of_mem _ mem', different, generator⟩, proposes⟩

/-! ### Commits -/

/-- The move from the witness of a fact onto the fact. -/
def onto (id : EdgeId) (edge : Edge) : List Move :=
  [.cross (.relation edge.relation .head) ⟨.node edge.head, .edge id, .head⟩]

theorem legalWalk_onto {facts : FactBase} {g : Graph} (indexed : facts.Indexed)
    (committed : facts.edge? id = some edge) :
    LegalWalk facts g (.node edge.head) (onto id edge) :=
  ⟨_, .cons (.cross (indexed.mem_neighbors_node.mpr ⟨id, edge, rfl, committed, rfl⟩)
    (.relation committed rfl) (by simp)) .nil⟩

/-- The path goes on beyond the step from the witness of a fact of the relation onto it. -/
def GoesOn (relation : RelationId) (path : List Key) : Prop :=
  ∃ key rest, path = .relation relation .head :: key :: rest

/-- A generator that another walk than the one onto the fact leads to stands at the end of a longer
path. -/
theorem Coherent.goesOn_of_walk (coherent : e.Coherent) (live : e.graph.edges.get? id = some edge)
    (new : e.facts.contains id = false) {moves : List Move} {a : Actions RuleGenerator Factor}
    (listed : (moves, a) ∈
      e.trie.walks (e.facts.add id edge).2 e.graph (.start (.node edge.head)))
    (different : moves ≠ onto id edge) {r : RuleGenerator} (mem : r ∈ a.generators) :
    GoesOn edge.relation r.path.keys := by
  have committed : (e.facts.add id edge).2.edge? id = some edge := by
    rw [FactBase.edge?_add new, if_pos rfl]
  have recorded := coherent.record live
  rw [record_of_new new] at recorded
  obtain ⟨walk, atPath⟩ := Trie.mem_walks_iff.mp listed
  rw [← Trie.generatorsAt_of_actionsAt? atPath] at mem
  obtain ⟨isRule, isPath, along⟩ := coherent.attached _ _ mem
  obtain ⟨_, relation, keys, begins⟩ := (coherent.typed _ isRule).head_path isPath
  obtain ⟨rfl, rest, onwards, first⟩ := LegalWalk.head_move (coherent.facts.add id edge)
    coherent.graph recorded.committed committed walk (along.symm.trans begins)
  cases rest with
  | nil => exact absurd first different
  | cons m rest => exact ⟨m.key, pathOf rest, by rw [begins, ← onwards, pathOf_cons]⟩

/-- The rivals that are pending after a commit were proposed by patterns that go on. -/
theorem Coherent.rivals_of_commit (coherent : e.Coherent) (agrees : e.Agrees)
    (live : e.graph.edges.get? id = some edge) (new : e.facts.contains id = false)
    (registered : .exclusion keyArgs ∈ e.trie.factorsAt [.relation edge.relation .head])
    (nonempty : keyArgs ≠ []) (inRange : ∀ k ∈ keyArgs, k < edge.tail.length) {d : EdgeId}
    {other : Edge} (pending : d ∈ (e.commitWith id true).2.agenda.pending)
    (liveOther : (e.commitWith id true).2.graph.edges.get? d = some other)
    (rivals : Rivals edge.relation keyArgs edge other) :
    ∃ f ∈ e.commitFirings id true, (∃ p ∈ f.proposals, p.edge = d) ∧
      GoesOn edge.relation f.generator.path.keys := by
  obtain ⟨commits, firings⟩ := coherent.commit_eq live new
  obtain ⟨count, fed⟩ := coherent.entered_effects live new
  have indexed := coherent.facts.add id edge
  have committed : (e.facts.add id edge).2.edge? id = some edge := by
    rw [FactBase.edge?_add new, if_pos rfl]
  obtain ⟨a, atPath, excludes⟩ := Trie.exists_actionsAt?_of_factor registered
  have listed : (onto id edge, a) ∈
      e.trie.walks (e.facts.add id edge).2 e.graph (.start (.node edge.head)) :=
    Trie.mem_walks_iff.mpr ⟨legalWalk_onto indexed committed, atPath⟩
  have witnesses : Witnesses (e.entered id edge) (bindingsOf (onto id edge)) edge := by
    intro g extends_
    have live' : g.edge id = .ok edge := Graph.edge_eq_ok_iff.mpr (extends_.edges _ _ live)
    simp [onto, Factor.committed?, Vertex.edge?, live', Except.toOption]
  rw [commits] at pending liveOther
  obtain ⟨f, called, ⟨walk', listed', different, generator⟩, proposes⟩ :=
    count.coherent.rivals_of_runMatches ⟨agrees.graph, agrees.agenda⟩
      (e.trie.nodup_walks indexed.nodup_neighbors _)
      (fun walk mem => fed (matchOf walk) (List.mem_map_of_mem mem)) listed witnesses nonempty
      inRange excludes id pending liveOther rivals
  have isOther : walk'.1 ≠ onto id edge := by
    intro moves
    have atPath' := (Trie.mem_walks_iff.mp listed').2
    rw [moves] at atPath'
    exact different (Prod.ext moves (Option.some.inj (atPath'.symm.trans atPath)))
  exact ⟨f, firings ▸ called, proposes, coherent.goesOn_of_walk live new listed' isOther generator⟩

/-- The calls of a commit are made for its fact. -/
theorem Coherent.fact_of_commitFirings (coherent : e.Coherent)
    (live : e.graph.edges.get? id = some edge) (new : e.facts.contains id = false) :
    ∀ f ∈ e.commitFirings id true, f.fact = id := by
  intro f mem
  obtain ⟨count, fed⟩ := coherent.entered_effects live new
  obtain ⟨_, _, calls⟩ := runMatches_effects id count.coherent fed
  rw [(coherent.commit_eq live new).2] at mem
  exact (exists_match_of_called calls mem).1

/-! ### Runs -/

/-- The engine that is to commit what a step accepts agrees with itself. -/
theorem Agrees.accepted (agrees : e.Agrees) {mode : Mode} {before : Engine Custom}
    (accepted : e.accepted? mode = some (id, before)) : before.Agrees := by
  have popped := agrees.agenda.pop
  rw [accepted?] at accepted
  generalize e.agenda.pop = answer at popped accepted
  obtain ⟨_ | c, agenda⟩ := answer
  · cases accepted
  · simp only at accepted
    split at accepted
    · cases accepted
    · split at accepted
      · cases accepted
      · split at accepted
        · cases accepted
          exact ⟨agrees.graph, popped⟩
        · cases accepted

/-- An exclusion on the arguments is applied to every commit of a fact of the relation, and the
relation has the arguments. -/
structure Exclusive (e : Engine Custom) (relation : RelationId) (keyArgs : List Nat) : Prop where
  registered : .exclusion keyArgs ∈ e.trie.factorsAt [.relation relation .head]
  nonempty : keyArgs ≠ []
  inRange : ∃ R, e.graph.schema.relation? relation = some R ∧ ∀ k ∈ keyArgs, k < R.arity

theorem Exclusive.of_trie (exclusive : Exclusive e relation keyArgs) (trie : e'.trie = e.trie)
    (extends_ : e.graph.Extends e'.graph) : Exclusive e' relation keyArgs := by
  obtain ⟨R, isR, bound⟩ := exclusive.inRange
  exact ⟨trie ▸ exclusive.registered, exclusive.nonempty, R, extends_.schema.relation isR, bound⟩

theorem Exclusive.lt_length (exclusive : Exclusive e relation keyArgs) (wf : e.graph.WellFormed)
    (live : e.graph.edges.get? id = some edge) (isRelation : edge.relation = relation) :
    ∀ k ∈ keyArgs, k < edge.tail.length := by
  obtain ⟨R, isR, bound⟩ := exclusive.inRange
  obtain ⟨R', _, fits⟩ := wf.fits live
  have isR' := fits.relation
  rw [isRelation] at isR'
  obtain rfl := Option.some.inj (isR.symm.trans isR')
  rw [fits.holds.length_tail]
  exact bound

/-- Two entries of a longer list are entries of the list, or the second is the new one. -/
theorem pair_sublist_concat {l : List EdgeId} {a b c : EdgeId}
    (pair : [a, b].Sublist (l ++ [c])) : [a, b].Sublist l ∨ a ∈ l ∧ b = c := by
  have backwards : [b, a].Sublist (c :: l.reverse) := by simpa using pair.reverse
  rcases List.sublist_cons_iff.mp backwards with old | ⟨rest, split, first⟩
  · exact .inl (by simpa using old.reverse)
  · cases split
    exact .inr ⟨by simpa using first, rfl⟩

/-- A call after the exclusion for the fact `id` proposed the candidate `d`: it was made for a fact
that was committed later, or for a pattern that goes on beyond `id`. -/
def ProposedAfter (calls : List Firing) (order : List EdgeId) (relation : RelationId)
    (id d : EdgeId) : Prop :=
  ∃ f ∈ calls, (∃ p ∈ f.proposals, p.edge = d) ∧
    (f.fact = id ∧ GoesOn relation f.generator.path.keys ∨ [id, f.fact].Sublist order)

theorem ProposedAfter.mono {calls more : List Firing} {order longer : List EdgeId} {d : EdgeId}
    (after : ProposedAfter calls order relation id d) (subset : calls ⊆ more)
    (sublist : order.Sublist longer) : ProposedAfter more longer relation id d := by
  obtain ⟨f, called, proposes, place⟩ := after
  exact ⟨f, subset called, proposes, place.imp_right fun later => later.trans sublist⟩

/-- It stays so when a fact is committed. -/
theorem ProposedAfter.commit {calls : List Firing} {d d' : EdgeId}
    (after : ProposedAfter calls e.facts.order relation d d') :
    ProposedAfter (calls ++ e.commitFirings id true) (e.facts.order ++ [id]) relation d d' :=
  after.mono (List.subset_append_left _ _) (List.sublist_append_left _ _)

/-- After these calls, every rival of a committed fact that was committed later, or is pending, was
proposed after the exclusion for the fact. -/
structure Excluded (e : Engine Custom) (relation : RelationId) (keyArgs : List Nat)
    (calls : List Firing) : Prop where
  committed : ∀ id d edge other, [id, d].Sublist e.facts.order → e.facts.edge? id = some edge →
    e.facts.edge? d = some other → Rivals relation keyArgs edge other →
    ProposedAfter calls e.facts.order relation id d
  pending : ∀ id edge, e.facts.edge? id = some edge → ∀ d ∈ e.agenda.pending, ∀ other,
    e.graph.edges.get? d = some other → Rivals relation keyArgs edge other →
    ProposedAfter calls e.facts.order relation id d

namespace Excluded

variable {calls : List Firing}

theorem of_settles (excluded : Excluded e relation keyArgs calls) (settles : Settles e e') :
    Excluded e' relation keyArgs calls where
  committed := settles.facts ▸ excluded.committed
  pending id edge found d pending other live := by
    rw [settles.facts] at found ⊢
    rw [settles.graph] at live
    exact excluded.pending id edge found d (settles.pending d pending) other live

/-- Of two rivals among the facts after a commit, both were there before, or the later one is the
fact of the commit. -/
theorem committed_commit (excluded : Excluded e relation keyArgs calls) (coherent : e.Coherent)
    (live : e.graph.edges.get? id = some edge) (new : e.facts.contains id = false)
    (proposed : ∀ d x, e.facts.edge? d = some x → Rivals relation keyArgs x edge →
      ProposedAfter calls e.facts.order relation d id) :
    ∀ d d' x other, [d, d'].Sublist (e.commitWith id true).2.facts.order →
      (e.commitWith id true).2.facts.edge? d = some x →
      (e.commitWith id true).2.facts.edge? d' = some other → Rivals relation keyArgs x other →
      ProposedAfter (calls ++ e.commitFirings id true) (e.commitWith id true).2.facts.order
        relation d d' := by
  have absent : id ∉ e.facts.order := coherent.facts.not_mem_order new
  rw [(commitWith_adds live new true).facts, FactBase.order_add new]
  intro d d' x other before found found' rivals
  rw [FactBase.edge?_add new] at found found'
  rcases pair_sublist_concat before with old | ⟨first, rfl⟩
  · have mem : d ∈ e.facts.order := old.subset (by simp)
    have mem' : d' ∈ e.facts.order := old.subset (by simp)
    rw [if_neg (ne_of_mem_of_not_mem mem absent)] at found
    rw [if_neg (ne_of_mem_of_not_mem mem' absent)] at found'
    exact (excluded.committed d d' x other old found found' rivals).commit
  · rw [if_neg (ne_of_mem_of_not_mem first absent)] at found
    rw [if_pos rfl, Option.some.injEq] at found'
    exact (proposed d x found (found' ▸ rivals)).commit

/-- A rival that is pending after a commit was pending before, or was proposed by a call of the
commit. Of the rivals of the new fact itself, the exclusion leaves only those that were proposed by
patterns that go on. -/
theorem pending_commit (excluded : Excluded e relation keyArgs calls) (coherent : e.Coherent)
    (agrees : e.Agrees) (exclusive : Exclusive e relation keyArgs)
    (live : e.graph.edges.get? id = some edge) (new : e.facts.contains id = false) :
    ∀ d x, (e.commitWith id true).2.facts.edge? d = some x →
      ∀ d' ∈ (e.commitWith id true).2.agenda.pending, ∀ other,
        (e.commitWith id true).2.graph.edges.get? d' = some other →
        Rivals relation keyArgs x other →
        ProposedAfter (calls ++ e.commitFirings id true) (e.commitWith id true).2.facts.order
          relation d d' := by
  obtain ⟨_, effects, _, _⟩ := coherent.commit_effects live new
  have ofFact := coherent.fact_of_commitFirings live new
  rw [(commitWith_adds live new true).facts, FactBase.order_add new]
  intro d x found d' pending other live' rivals
  rw [FactBase.edge?_add new] at found
  split at found
  · -- The rivals of the new fact itself were off the agenda once the exclusion was applied.
    rename_i same
    subst same
    obtain rfl := Option.some.inj found
    obtain rfl := rivals.first
    obtain ⟨f, called, proposes, goesOn⟩ := coherent.rivals_of_commit agrees live new
      exclusive.registered exclusive.nonempty (exclusive.lt_length coherent.graph live rfl)
      pending live' rivals
    exact ⟨f, List.mem_append_right _ called, proposes, .inl ⟨ofFact f called, goesOn⟩⟩
  · have first : d ∈ e.facts.order := (coherent.facts.order d).mpr ⟨x, found⟩
    rcases effects.pending d' pending with old | ⟨f, called, proposes⟩
    · rw [record_of_new new] at old effects
      obtain ⟨other', before⟩ := coherent.pending d' old
      have after := effects.frame.grows.extends_.edges _ _ before
      obtain rfl := Option.some.inj (after.symm.trans live')
      exact (excluded.pending d x found d' old other' before rivals).commit
    · have later : [d, f.fact].Sublist (e.facts.order ++ [id]) := by
        rw [ofFact f called]
        exact (List.singleton_sublist.mpr first).append (.refl [id])
      exact ⟨f, List.mem_append_right _ called, proposes, .inr later⟩

/-- A commit keeps this, if what it commits was itself proposed after the exclusions. -/
theorem commit (excluded : Excluded e relation keyArgs calls) (coherent : e.Coherent)
    (agrees : e.Agrees) (exclusive : Exclusive e relation keyArgs)
    (proposed : ∀ d x, e.facts.edge? d = some x → ∀ other, e.graph.edges.get? id = some other →
      Rivals relation keyArgs x other → ProposedAfter calls e.facts.order relation d id) :
    Excluded (e.commitWith id true).2 relation keyArgs (calls ++ e.commitFirings id true) := by
  cases live : e.graph.edges.get? id with
  | none =>
    obtain ⟨same, none⟩ := commitWith_of_dead live true
    rwa [same, none, List.append_nil]
  | some edge =>
    cases new : e.facts.contains id with
    | true =>
      obtain ⟨same, none⟩ := commitWith_of_contains live new true
      rwa [same, none, List.append_nil]
    | false =>
      have fromPending := fun d x found => proposed d x found edge live
      exact ⟨excluded.committed_commit coherent live new fromPending,
        excluded.pending_commit coherent agrees exclusive live new⟩

/-- A step keeps this: what it commits was pending. -/
theorem step (excluded : Excluded e relation keyArgs calls) (coherent : e.Coherent)
    (agrees : e.Agrees) (exclusive : Exclusive e relation keyArgs) (mode : Mode) :
    Excluded (e.step mode).2 relation keyArgs (calls ++ (Operation.step mode).firings e) := by
  rcases step_cases coherent.agenda mode with
    ⟨none, settles⟩ | ⟨id, before, stats, accepted, settles, pending, same, _⟩
  · have firings : (Operation.step mode).firings e = [] := by
      simp [Operation.firings, Operation.committing?, none]
    rw [firings, List.append_nil]
    exact excluded.of_settles settles
  · have firings : (Operation.step mode).firings e = before.commitFirings id true := by
      simp [Operation.firings, Operation.committing?, accepted]
    have proposed : ∀ d x, before.facts.edge? d = some x →
        ∀ other, before.graph.edges.get? id = some other → Rivals relation keyArgs x other →
          ProposedAfter calls before.facts.order relation d id := by
      rw [settles.facts, settles.graph]
      exact fun d x found => excluded.pending d x found id pending
    have committed := (excluded.of_settles settles).commit (coherent.of_settles settles)
      (agrees.accepted accepted) (exclusive.of_trie settles.trie (settles.graph ▸ .refl _)) proposed
    rw [same, firings]
    exact ⟨committed.committed, committed.pending⟩

/-- So do steps one after the other. -/
theorem steps (excluded : Excluded e relation keyArgs calls) (coherent : e.Coherent)
    (agrees : e.Agrees) (exclusive : Exclusive e relation keyArgs) (mode : Mode) (n : Nat) :
    Excluded (e.performAll (.replicate n (.step mode))) relation keyArgs
      (calls ++ e.history (.replicate n (.step mode))) := by
  induction n generalizing e calls with
  | zero => simpa [history] using excluded
  | succ n ih =>
    have continues_ : Continues e ((Operation.step mode).perform e) :=
      coherent.continues_perform (by simp)
    rw [List.replicate_succ, performAll_cons, history, ← List.append_assoc]
    exact ih (excluded.step coherent agrees exclusive mode) (coherent.step mode) (agrees.step mode)
      (exclusive.of_trie (coherent.works_step mode).trie continues_.graph)

/-- At the start, no fact of the relation is committed. -/
theorem of_none (none : ∀ id edge, e.facts.edge? id = some edge → edge.relation ≠ relation) :
    Excluded e relation keyArgs [] where
  committed id _ edge _ _ found _ rivals := absurd rivals.first (none id edge found)
  pending id edge found _ _ _ _ rivals := absurd rivals.first (none id edge found)

end Excluded

/-- What steps propose is of a relation that a rule concludes. -/
theorem Coherent.exists_rule_of_proposed (coherent : e.Coherent) {mode : Mode} {n : Nat}
    {f : Firing} (called : f ∈ e.history (.replicate n (.step mode))) {p : Proposal}
    (proposed : p ∈ f.proposals) {other : Edge}
    (live : (e.performAll (.replicate n (.step mode))).graph.edges.get? p.edge = some other) :
    ∃ rule ∈ e.rules, rule.conclusionRelation = other.relation := by
  induction n generalizing e with
  | zero => cases called
  | succ n ih =>
    rw [List.replicate_succ, history] at called
    rw [List.replicate_succ, performAll_cons] at live
    rcases List.mem_append.mp called with here | later
    · obtain ⟨edge, fires⟩ := coherent.fires_of_mem here
      obtain ⟨_, _, _, at_, _⟩ := fires.exists_walk here
      obtain ⟨wf, fed, _, after⟩ := fires.called f here
      obtain ⟨_, _, _, _, concluded, isRelation, _⟩ := Firing.concludes wf fed proposed
      have matching : ∀ op ∈ List.replicate n (.step mode : Operation Custom), op.IsMatching := by
        intro op mem
        rw [List.eq_of_mem_replicate mem]
        trivial
      have continues_ := (coherent.step mode).continues_performAll matching
      have kept := continues_.graph.edges _ _ (after.edges _ _ concluded)
      obtain rfl := Option.some.inj (kept.symm.trans live)
      exact ⟨_, (coherent.attached _ _ (List.mem_of_getElem? at_)).1, isRelation.symm⟩
    · obtain ⟨rule, isRule, concludes⟩ := ih (coherent.step mode) later live
      exact ⟨rule, (coherent.works_step mode).rules ▸ isRule, concludes⟩

/-- Of two committed facts, one was committed first. -/
theorem first_or_last {order : List EdgeId} {a b : EdgeId} (memA : a ∈ order) (memB : b ∈ order)
    (different : a ≠ b) : [a, b].Sublist order ∨ [b, a].Sublist order := by
  obtain ⟨front, back, rfl⟩ := List.append_of_mem memA
  rcases List.mem_append.mp memB with inFront | inBack
  · exact .inr ((List.singleton_sublist.mpr inFront).append
      (List.singleton_sublist.mpr List.mem_cons_self))
  · have later := List.mem_of_ne_of_mem different.symm inBack
    exact .inl (.trans (.cons_cons a (List.singleton_sublist.mpr later))
      (List.sublist_append_right _ _))

/-- Of two rivals that steps commit, the later one was proposed after the exclusion for the other,
by a rule. -/
theorem Coherent.later_of_rivals (coherent : e.Coherent) (agrees : e.Agrees)
    (exclusive : Exclusive e relation keyArgs)
    (none : ∀ id edge, e.facts.edge? id = some edge → edge.relation ≠ relation) {mode : Mode}
    {n : Nat} {d : EdgeId} {other : Edge}
    (found : (e.performAll (.replicate n (.step mode))).facts.edge? id = some edge)
    (found' : (e.performAll (.replicate n (.step mode))).facts.edge? d = some other)
    (rivals : Rivals relation keyArgs edge other)
    (before : [id, d].Sublist (e.performAll (.replicate n (.step mode))).facts.order) :
    (∃ rule ∈ e.rules, rule.conclusionRelation = relation) ∧
      ProposedAfter (e.history (.replicate n (.step mode)))
        (e.performAll (.replicate n (.step mode))).facts.order relation id d := by
  have excluded := (Excluded.of_none none).steps coherent agrees exclusive mode n
  have after := excluded.committed id d edge other before found found' rivals
  have ⟨f, called, ⟨p, proposed, isLater⟩, _⟩ := after
  have live := (coherent.performAll (.replicate n (.step mode))).committed d other found'
  rw [← isLater] at live
  have concludes := coherent.exists_rule_of_proposed called proposed live
  exact ⟨rivals.second ▸ concludes, after⟩

/-- An exclusion takes the rivals of a fact off the agenda once, when the fact is committed. So if a
run that starts without facts of the relation commits two rivals, then a rule concludes the
relation, and a call proposed the later rival after the exclusion for the other: at a later commit,
or at the same commit for a pattern that goes on. -/
theorem Reachable.exclusion_kept (reachable : Reachable e)
    (exclusive : Exclusive e relation keyArgs)
    (none : ∀ id edge, e.facts.edge? id = some edge → edge.relation ≠ relation)
    (mode : Mode) (fuel : Nat) (limit : Option Nat) :
    ∃ n, let final := (Engine.runWithin mode fuel limit e).engine
      let calls := e.history (.replicate n (.step mode))
      final = e.performAll (.replicate n (.step mode)) ∧
        ∀ id d edge other, final.facts.edge? id = some edge → final.facts.edge? d = some other →
          id ≠ d → Rivals relation keyArgs edge other →
          (∃ rule ∈ e.rules, rule.conclusionRelation = relation) ∧
            ([id, d].Sublist final.facts.order ∧
                ProposedAfter calls final.facts.order relation id d ∨
              [d, id].Sublist final.facts.order ∧
                ProposedAfter calls final.facts.order relation d id) := by
  have coherent := reachable.coherent
  obtain ⟨n, same⟩ := runWithin_eq_performAll mode fuel limit e
  refine ⟨n, same, ?_⟩
  rw [same]
  intro id d edge other found found' different rivals
  have indexed := (coherent.performAll (.replicate n (.step mode))).facts
  have mem := (indexed.order id).mpr ⟨edge, found⟩
  have mem' := (indexed.order d).mpr ⟨other, found'⟩
  rcases first_or_last mem mem' different with before | before
  · obtain ⟨concludes, after⟩ :=
      coherent.later_of_rivals reachable.agrees exclusive none found found' rivals before
    exact ⟨concludes, .inl ⟨before, after⟩⟩
  · obtain ⟨concludes, after⟩ :=
      coherent.later_of_rivals reachable.agrees exclusive none found' found rivals.symm before
    exact ⟨concludes, .inr ⟨before, after⟩⟩

/-- A link that goes on is a link from the same point. -/
def extendRule : Rule :=
  ⟨[⟨"link", none, [.var "x", .var "y"]⟩, ⟨"next", none, [.var "y", .var "z"]⟩],
    ⟨"link", none, [.var "x", .var "z"]⟩, none⟩

/-- At most one link from each point. Point 2 goes on to 3, and links from 1 to 2 and to 4 are
pending. -/
def extending : Engine :=
  linkable.performAll
    [.declare "next" ["point", "point"], .addFactor ⟨0⟩ (.exclusion [0]),
      .addRule extendRule (.constant 1.0),
      .makeEdgeFromValues ⟨1⟩ [.int 2, .int 3] .temporary, .commit ⟨.temporary, 0⟩ true,
      .makeEdgeFromValues ⟨0⟩ [.int 1, .int 2] .temporary,
      .makeEdgeFromValues ⟨0⟩ [.int 1, .int 4] .temporary,
      .addCandidate ⟨.temporary, 1⟩ (.constant 1.0), .addCandidate ⟨.temporary, 2⟩ (.constant 0.5)]

theorem reachable_extending : Reachable extending :=
  reachable_linkable.performAll _

theorem exclusive_extending : Exclusive extending ⟨0⟩ [0] where
  registered := by
    rw [extending, reachable_linkable.coherent.factorsAt_performAll]
    exact List.mem_append_right _ (by simp [Operation.attaches])
  nonempty := by simp
  inRange := by
    have isR : (extending.graph.schema.relation? ⟨0⟩).map Relation.arity = some 2 := by
      decide +kernel
    obtain ⟨R, found, arity⟩ := Option.map_eq_some_iff.mp isR
    exact ⟨R, found, by simp [arity]⟩

theorem no_link_extending (id : EdgeId) (edge : Edge)
    (found : extending.facts.edge? id = some edge) : edge.relation ≠ ⟨0⟩ := by
  have order : extending.facts.order = [⟨.temporary, 0⟩] := by decide +kernel
  have isNext : (extending.facts.edge? ⟨.temporary, 0⟩).map Edge.relation = some ⟨1⟩ := by
    decide +kernel
  have mem := (reachable_extending.coherent.facts.order id).mpr ⟨edge, found⟩
  rw [order, List.mem_singleton] at mem
  rw [← mem, found, Option.map_some, Option.some.injEq] at isNext
  simp [isNext]

/-- The facts of the links from 1 to 2 and from 1 to 3 after a run. -/
theorem rivals_extending :
    let final := (runWithin .decoder 3 none extending).engine
    let first : Edge := ⟨⟨0⟩, ⟨.temporary, 4⟩, [⟨.temporary, 3⟩, ⟨.temporary, 0⟩]⟩
    let second : Edge := ⟨⟨0⟩, ⟨.temporary, 7⟩, [⟨.temporary, 3⟩, ⟨.temporary, 1⟩]⟩
    final.facts.order = [⟨.temporary, 0⟩, ⟨.temporary, 1⟩, ⟨.temporary, 3⟩] ∧
      final.facts.edge? ⟨.temporary, 1⟩ = some first ∧
      final.facts.edge? ⟨.temporary, 3⟩ = some second ∧ Rivals ⟨0⟩ [0] first second :=
  ⟨by decide +kernel, by decide +kernel, by decide +kernel, rfl, rfl, by decide⟩

/-- The exclusion leaves out the link to 4. The link to 3 is proposed after it. -/
theorem exclusion_kept_extending : Reachable extending ∧ Exclusive extending ⟨0⟩ [0] ∧
    (∀ id edge, extending.facts.edge? id = some edge → edge.relation ≠ ⟨0⟩) ∧
    let final := (runWithin .decoder 3 none extending).engine
    extending.agenda.pending = [⟨.temporary, 1⟩, ⟨.temporary, 2⟩] ∧
      final.facts.order = [⟨.temporary, 0⟩, ⟨.temporary, 1⟩, ⟨.temporary, 3⟩] ∧
      ∃ n, ProposedAfter (extending.history (.replicate n (.step .decoder))) final.facts.order ⟨0⟩
        ⟨.temporary, 1⟩ ⟨.temporary, 3⟩ := by
  obtain ⟨order, found, found', rivals⟩ := rivals_extending
  obtain ⟨n, _, kept⟩ := Reachable.exclusion_kept reachable_extending exclusive_extending
    no_link_extending .decoder 3 none
  refine ⟨reachable_extending, exclusive_extending, no_link_extending, by decide +kernel, order, n,
    ?_⟩
  rcases (kept _ _ _ _ found found' (by decide) rivals).2 with ⟨_, after⟩ | ⟨before, _⟩
  · exact after
  · rw [order] at before
    exact absurd before (by decide)

/-- Two rivals are committed although the exclusion is there from the start. -/
theorem rivals_not_excluded : ¬ ∀ (e : Engine) (relation : RelationId) (keyArgs : List Nat),
    Reachable e → Exclusive e relation keyArgs →
    (∀ id edge, e.facts.edge? id = some edge → edge.relation ≠ relation) →
    ∀ (mode : Mode) (fuel : Nat) (limit : Option Nat) (id d : EdgeId) (edge other : Edge),
      (Engine.runWithin mode fuel limit e).engine.facts.edge? id = some edge →
      (Engine.runWithin mode fuel limit e).engine.facts.edge? d = some other →
      id ≠ d → ¬ Rivals relation keyArgs edge other := by
  intro one
  obtain ⟨_, found, found', rivals⟩ := rivals_extending
  exact one extending ⟨0⟩ [0] reachable_extending exclusive_extending no_link_extending .decoder 3
    none _ _ _ _ found found' (by decide) rivals

end Engine

end ScoredChaining
