import Mathlib.Data.List.DropRight
import Mathlib.Data.Set.Insert
import ScoredChaining.Proofs.Decision.Foremost
import ScoredChaining.Proofs.Engine.Recording

/-!
Group constraints while an engine works.

A constraint is installed before the relation has policies or facts. From then on its record follows
what the engine does, for as long as nothing is forgotten.

* `Engine.atMostOne_kept`: where a group may have one fact at most, the recorded groups are those of
  the committed facts, and no step commits a second fact of a group.
* `Engine.atMostOne_kept_since`: after a record was forgotten, this holds of the facts that are
  committed from then on. A schema fact of an earlier document does not keep others of its group
  from being committed (`Engine.not_atMostOne_kept_forgotten`).
* `Engine.Reachable.exactlyOne_kept`: where a group must have a fact, the recorded groups are those
  of the candidates that came off the agenda, each of which has a committed fact. A fact that is
  committed directly is not noted (`Engine.not_exactlyOne_kept_loaded`).
-/

namespace ScoredChaining

variable {Custom : Type} [Decider Custom]

/-! ### Contents -/

namespace FactBase

variable {s s' s'' : FactBase} {id : EdgeId} {e : Edge}

/-- The contents of the committed facts. -/
def contents (s : FactBase) : Set Edge :=
  {e | ∃ id, s.edge? id = some e}

/-- The contents of the committed facts that were not committed in `base`. -/
def since (base s : FactBase) : Set Edge :=
  {e | ∃ id, base.contains id = false ∧ s.edge? id = some e}

theorem since_self (s : FactBase) : s.since s = ∅ := by
  refine Set.eq_empty_iff_forall_notMem.mpr ?_
  rintro e ⟨id, new, found⟩
  rw [contains_eq_false_iff.mp new] at found
  cases found

theorem since_add (new : s.contains id = false) : s.since (s.add id e).2 = {e} := by
  ext e'
  simp only [since, Set.mem_ofPred_eq, Set.mem_singleton_iff, edge?_add new]
  constructor
  · rintro ⟨id', new', found⟩
    rw [contains_eq_false_iff.mp new'] at found
    split at found
    · exact (Option.some.inj found).symm
    · cases found
  · rintro rfl
    exact ⟨id, new, if_pos rfl⟩

theorem Extends.new (grown : s.Extends s') (new : s'.contains id = false) :
    s.contains id = false := by
  rw [contains_eq_false_iff, Option.eq_none_iff_forall_ne_some] at new ⊢
  exact fun e found => new e (grown.edges id e found)

theorem Extends.contents (grown : s.Extends s') : s.contents ⊆ s'.contents :=
  fun e ⟨id, found⟩ => ⟨id, grown.edges id e found⟩

theorem contents_eq (grown : s.Extends s') : s'.contents = s.contents ∪ s.since s' := by
  refine Set.Subset.antisymm ?_
    (Set.union_subset grown.contents fun e ⟨id, _, found⟩ => ⟨id, found⟩)
  rintro e ⟨id, found⟩
  cases known : s.contains id with
  | false => exact .inr ⟨id, known, found⟩
  | true =>
    obtain ⟨e', found'⟩ := contains_iff.mp known
    obtain rfl := Option.some.inj ((grown.edges id e' found').symm.trans found)
    exact .inl ⟨id, found'⟩

theorem since_trans (first : s.Extends s') (second : s'.Extends s'') :
    s.since s'' = s.since s' ∪ s'.since s'' := by
  refine Set.Subset.antisymm ?_ (Set.union_subset ?_ ?_)
  · rintro e ⟨id, new, found⟩
    cases known : s'.contains id with
    | false => exact .inr ⟨id, known, found⟩
    | true =>
      obtain ⟨e', found'⟩ := contains_iff.mp known
      obtain rfl := Option.some.inj ((second.edges id e' found').symm.trans found)
      exact .inl ⟨id, new, found'⟩
  · rintro e ⟨id, new, found⟩
    exact ⟨id, new, second.edges id e found⟩
  · rintro e ⟨id, new, found⟩
    exact ⟨id, first.new new, found⟩

end FactBase

namespace Group

variable {g : Group}

theorem keysOf_empty : g.keysOf ∅ = ∅ := by
  simp [keysOf]

theorem keysOf_union (edges edges' : Set Edge) :
    g.keysOf (edges ∪ edges') = g.keysOf edges ∪ g.keysOf edges' := by
  ext k
  simp only [keysOf, Set.mem_ofPred_eq, Set.mem_union, or_and_right, exists_or]

theorem keysOf_mono {edges edges' : Set Edge} (sub : edges ⊆ edges') :
    g.keysOf edges ⊆ g.keysOf edges' :=
  fun _ ⟨e, mem, related, same⟩ => ⟨e, sub mem, related, same⟩

/-- Facts of other relations have no group. -/
theorem keysOf_eq_empty {edges : Set Edge} (others : ∀ e ∈ edges, e.relation ≠ g.relation) :
    g.keysOf edges = ∅ :=
  Set.eq_empty_iff_forall_notMem.mpr fun _ ⟨e, mem, related, _⟩ => others e mem related

end Group

namespace Engine

variable {e e' : Engine Custom} {g : Group} {keys : Set GroupKey} {op : Operation Custom}
  {ops : List (Operation Custom)}

/-- The constraint has recorded nothing, and its relation has neither policies nor facts. -/
structure Installable (e : Engine Custom) (g : Group) : Prop where
  fresh : g.seen = []
  first : e.decisions.get? g.relation = none
  without : ∀ edge ∈ e.facts.contents, edge.relation ≠ g.relation

theorem Installable.records (installable : Installable e g) :
    (e.addPolicy g.relation (.group g)).decisions.Records g ∅ :=
  .of_leads (Dispatch.leads_add installable.first) installable.fresh

/-- The next step enters a fact with this content. -/
def Commits (e : Engine Custom) (mode : Mode) (edge : Edge) : Prop :=
  ∃ id, e.facts.edge? id = none ∧ (e.step mode).2.facts.edge? id = some edge

/-- A step commits nothing but the candidate that it takes, and only if it is accepted. -/
theorem Commits.accepted {mode : Mode} {edge : Edge} (commits : Commits e mode edge) :
    ∃ c, e.taken? = some (c, edge) ∧ e.Accepted mode c edge := by
  obtain ⟨id, new, found⟩ := commits
  cases taken : e.taken? with
  | none =>
    rw [(step_of_not_taken taken mode).facts, new] at found
    cases found
  | some x =>
    obtain ⟨c, edge'⟩ := x
    cases step_settles taken mode with
    | keeps _ facts _ =>
      rw [facts, new] at found
      cases found
    | enters accepted fresh facts _ =>
      rw [facts, FactBase.edge?_add fresh, new] at found
      split at found
      · obtain rfl := Option.some.inj found
        exact ⟨c, rfl, accepted⟩
      · cases found

/-- No step commits a fact of a recorded group. -/
theorem Commits.not_recorded {edge : Edge} (commits : Commits e .decoder edge)
    (records : e.decisions.Records g keys) (related : edge.relation = g.relation) :
    g.key edge ∉ keys := by
  intro known
  obtain ⟨c, _, predicted, answers, accepts⟩ := commits.accepted
  rw [records.refuses related known] at answers
  obtain rfl := Except.ok.inj answers
  cases accepts

theorem extends_perform (e : Engine Custom) (keeps : ¬ op.Forgets) :
    e.facts.Extends (op.perform e).facts := by
  cases e.effect keeps with
  | steady _ steady => exact steady.facts ▸ .refl _
  | fallback _ isOp => exact isOp ▸ .refl _
  | policy _ _ isOp => exact isOp ▸ .refl _
  | adds id edge _ _ adds => exact adds.facts ▸ e.facts.extends_add id edge
  | settles _ c edge _ _ settled =>
    cases settled with
    | enters _ _ facts _ => exact facts ▸ e.facts.extends_add c.edge edge
    | keeps _ facts _ => exact facts ▸ .refl _

/-! ### Links from points -/

/-- A constraint on how many links there are from a point. -/
def perPoint (mode : GroupMode) : Group :=
  ⟨mode, ⟨0⟩, [0], [], mode.name ++ ":link(x,y):x"⟩

example : Group.read "AT_MOST_ONE:link(x,y):x" linkable.graph.schema =
    .ok (perPoint .atMostOne) := by
  decide +kernel

theorem installable_perPoint (mode : GroupMode) : Installable linkable (perPoint mode) where
  fresh := rfl
  first := rfl
  without := by
    rintro edge ⟨id, found⟩
    simp [linkable, performAll, Operation.perform, declare, usual, withPriority, FactBase.edge?,
      FactBase.empty] at found

/-- A link from 1 to 2 that is committed, and the candidates from 1 to 3 and from 2 to 3, the second
of which comes first. -/
def threeLinks : List Operation :=
  [.makeEdgeFromValues ⟨0⟩ [.int 1, .int 2] .temporary,
    .makeEdgeFromValues ⟨0⟩ [.int 1, .int 3] .temporary,
    .makeEdgeFromValues ⟨0⟩ [.int 2, .int 3] .temporary, .commit ⟨.temporary, 0⟩ true,
    .addCandidate ⟨.temporary, 1⟩ (.constant 1.0), .addCandidate ⟨.temporary, 2⟩ (.constant 2.0)]

/-- A link of the schema from 1 to 2, and in the next document a candidate from 1 to 3. -/
def keptLink : List Operation :=
  [.makeEdgeFromValues ⟨0⟩ [.int 1, .int 2] .schema, .commit ⟨.schema, 0⟩ false, .clearDocument,
    .makeEdgeFromValues ⟨0⟩ [.int 1, .int 3] .temporary,
    .addCandidate ⟨.temporary, 0⟩ (.constant 1.0)]

/-- The same, and once there has been a decision about that candidate, another one from 1 to 4. -/
def keptLinkThenRival : List Operation :=
  keptLink ++ [.step .decoder, .makeEdgeFromValues ⟨0⟩ [.int 1, .int 4] .temporary,
    .addCandidate ⟨.temporary, 1⟩ (.constant 1.0)]

/-! ### One fact at most -/

/-- The record follows the facts. -/
theorem records_perform (records : e.decisions.Records g keys) (mode : g.mode = .atMostOne)
    (keeps : ¬ op.Forgets) : (op.perform e).decisions.Records g
      (keys ∪ g.keysOf (e.facts.since (op.perform e).facts)) := by
  have idle : keys ∪ g.keysOf (e.facts.since e.facts) = keys := by
    rw [FactBase.since_self, Group.keysOf_empty, Set.union_empty]
  cases e.effect keeps with
  | steady _ steady =>
    rw [steady.facts, idle, steady.decisions]
    exact records
  | fallback policy isOp =>
    subst isOp
    rw [Operation.perform, setFallback, idle]
    exact records.setFallback policy
  | policy relation policy isOp =>
    subst isOp
    rw [Operation.perform, addPolicy, idle]
    exact records.add relation policy
  | adds id edge _ _ adds =>
    rw [adds.facts, FactBase.since_add adds.new, adds.decisions]
    exact records.committed mode edge
  | settles _ c edge _ _ settled =>
    have decided := records.decide mode edge c.score.read.1
    cases settled with
    | enters _ new facts decisions =>
      rw [facts, FactBase.since_add new, decisions]
      exact decided.committed mode edge
    | keeps _ facts decisions =>
      rw [facts, idle, decisions]
      exact decided

/-- The engine after the last of the operations that forgets the record, or before all of them. -/
def cleared (e : Engine Custom) (ops : List (Operation Custom)) : Engine Custom :=
  e.performAll (ops.rdropWhile fun op => ¬ op.Forgets)

theorem cleared_of_keeps (keeps : ∀ op ∈ ops, ¬ op.Forgets) : e.cleared ops = e := by
  rw [cleared, List.rdropWhile_eq_nil_iff.mpr fun op mem => decide_eq_true (keeps op mem)]
  rfl

theorem perform_forgets (forgets : op.Forgets) :
    (op.perform e).decisions = e.decisions.clear := by
  cases op <;> first | exact forgets.elim | rfl

theorem cleared_of_forgets (forgets : op.Forgets) :
    e.cleared (ops ++ [op]) = op.perform (e.performAll ops) := by
  rw [cleared, List.rdropWhile_concat_neg _ _ _ (by simpa using forgets), performAll_append]
  rfl

theorem cleared_append_keeps (keeps : ¬ op.Forgets) : e.cleared (ops ++ [op]) = e.cleared ops := by
  rw [cleared, List.rdropWhile_concat_pos _ _ _ (by simpa using keeps), cleared]

/-- The record is that of the facts that are new since it was last forgotten. -/
theorem records_performAll (records : e.decisions.Records g ∅) (mode : g.mode = .atMostOne)
    (ops : List (Operation Custom)) :
    (e.cleared ops).facts.Extends (e.performAll ops).facts ∧ (e.performAll ops).decisions.Records g
      (g.keysOf ((e.cleared ops).facts.since (e.performAll ops).facts)) := by
  have restart : ∀ {e : Engine Custom}, e.decisions.Records g ∅ →
      e.facts.Extends e.facts ∧ e.decisions.Records g (g.keysOf (e.facts.since e.facts)) := by
    intro e records
    rw [FactBase.since_self, Group.keysOf_empty]
    exact ⟨.refl _, records⟩
  induction ops using List.reverseRecOn with
  | nil => exact restart records
  | append_singleton ops op ih =>
    obtain ⟨grown, recorded⟩ := ih
    have last : e.performAll (ops ++ [op]) = op.perform (e.performAll ops) := performAll_append ..
    by_cases forgets : op.Forgets
    · rw [cleared_of_forgets forgets, last]
      apply restart
      rw [perform_forgets forgets]
      exact recorded.clear
    · have step := (e.performAll ops).extends_perform forgets
      rw [cleared_append_keeps forgets, last, FactBase.since_trans grown step, Group.keysOf_union]
      exact ⟨grown.trans step, records_perform recorded mode forgets⟩

/-- The recorded groups are those of the committed facts, and no step commits a second fact of a
group. -/
theorem atMostOne_kept (mode : g.mode = .atMostOne) (installable : Installable e g)
    (keeps : ∀ op ∈ ops, ¬ op.Forgets) :
    let e' := (e.addPolicy g.relation (.group g)).performAll ops
    e'.decisions.Records g (g.keysOf e'.facts.contents) ∧
      (∀ edge, Commits e' .decoder edge → edge.relation = g.relation →
        g.key edge ∉ g.keysOf e'.facts.contents) ∧
      ∀ fuel limit, ∃ n, (runWithin .decoder fuel limit e').engine =
        e'.performAll (.replicate n (.step .decoder)) := by
  intro e'
  obtain ⟨grown, records⟩ := records_performAll installable.records mode ops
  rw [cleared_of_keeps keeps] at grown records
  have none : g.keysOf (e.addPolicy g.relation (.group g)).facts.contents = ∅ :=
    Group.keysOf_eq_empty installable.without
  have same : g.keysOf e'.facts.contents =
      g.keysOf ((e.addPolicy g.relation (.group g)).facts.since e'.facts) := by
    rw [FactBase.contents_eq grown, Group.keysOf_union, none, Set.empty_union]
  rw [same]
  exact ⟨records, fun edge commits => commits.not_recorded records,
    fun fuel limit => runWithin_eq_performAll .decoder fuel limit e'⟩

theorem atMostOne_kept_linkable : Installable linkable (perPoint .atMostOne) ∧
    (∀ op ∈ threeLinks, ¬ op.Forgets) ∧
    let e' := (linkable.addPolicy ⟨0⟩ (.group (perPoint .atMostOne))).performAll threeLinks
    let edge : Edge := ⟨⟨0⟩, ⟨.temporary, 5⟩, [⟨.temporary, 1⟩, ⟨.temporary, 3⟩]⟩
    e'.decisions.Records (perPoint .atMostOne) ((perPoint .atMostOne).keysOf e'.facts.contents) ∧
      Commits e' .decoder edge ∧
      (perPoint .atMostOne).key edge ∉ (perPoint .atMostOne).keysOf e'.facts.contents := by
  have keeps : ∀ op ∈ threeLinks, ¬ op.Forgets := by decide +kernel
  refine ⟨installable_perPoint .atMostOne, keeps, ?_⟩
  intro e' edge
  have commits : Commits e' .decoder edge :=
    ⟨⟨.temporary, 2⟩, by decide +kernel, by decide +kernel⟩
  obtain ⟨records, apart, _⟩ := atMostOne_kept rfl (installable_perPoint .atMostOne) keeps
  exact ⟨records, commits, apart edge commits rfl⟩

/-- Where the record was forgotten, this holds of the facts that were committed since. -/
theorem atMostOne_kept_since (mode : g.mode = .atMostOne) (installable : Installable e g)
    (ops : List (Operation Custom)) :
    let start := e.addPolicy g.relation (.group g)
    let since := (start.cleared ops).facts.since (start.performAll ops).facts
    (start.performAll ops).decisions.Records g (g.keysOf since) ∧
      ∀ edge, Commits (start.performAll ops) .decoder edge → edge.relation = g.relation →
        g.key edge ∉ g.keysOf since := by
  intro start since
  obtain ⟨_, records⟩ := records_performAll installable.records mode ops
  exact ⟨records, fun edge commits => commits.not_recorded records⟩

/-- The link from 1 to 3 is committed after the document was cleared, and a link from 1 to 4 is
refused after it. -/
theorem atMostOne_kept_since_linkable : Installable linkable (perPoint .atMostOne) ∧
    let start := linkable.addPolicy ⟨0⟩ (.group (perPoint .atMostOne))
    let e' := start.performAll keptLinkThenRival
    let since := (start.cleared keptLinkThenRival).facts.since e'.facts
    let earlier : Edge := ⟨⟨0⟩, ⟨.temporary, 1⟩, [⟨.schema, 0⟩, ⟨.temporary, 0⟩]⟩
    let edge : Edge := ⟨⟨0⟩, ⟨.temporary, 3⟩, [⟨.schema, 0⟩, ⟨.temporary, 2⟩]⟩
    e'.decisions.Records (perPoint .atMostOne) ((perPoint .atMostOne).keysOf since) ∧
      earlier ∈ since ∧ e'.taken?.map Prod.snd = some edge ∧ ¬ Commits e' .decoder edge ∧
      (e'.step .decoder).1.toOption.map Step.outcome = some .rejected := by
  refine ⟨installable_perPoint .atMostOne, ?_⟩
  intro start e' since earlier edge
  have committed : earlier ∈ since := ⟨⟨.temporary, 0⟩, by decide +kernel, by decide +kernel⟩
  obtain ⟨records, apart⟩ :=
    atMostOne_kept_since rfl (installable_perPoint .atMostOne) keptLinkThenRival
  refine ⟨records, committed, by decide +kernel, fun commits => ?_, by decide +kernel⟩
  exact apart edge commits rfl ⟨earlier, committed, rfl, rfl⟩

/-- A second link from 1 is committed, since the record forgets the link that stays. -/
theorem not_atMostOne_kept_forgotten : ¬ ∀ (e : Engine) (g : Group) (ops : List Operation),
    Reachable e → g.mode = .atMostOne → Installable e g →
      let e' := (e.addPolicy g.relation (.group g)).performAll ops
      ∀ edge, Commits e' .decoder edge → edge.relation = g.relation →
        g.key edge ∉ g.keysOf e'.facts.contents := by
  intro kept
  refine kept linkable (perPoint .atMostOne) keptLink reachable_linkable rfl
    (installable_perPoint .atMostOne) ⟨⟨0⟩, ⟨.temporary, 1⟩, [⟨.schema, 0⟩, ⟨.temporary, 0⟩]⟩
    ⟨⟨.temporary, 0⟩, by decide +kernel, by decide +kernel⟩ rfl ?_
  exact ⟨⟨⟨0⟩, ⟨.schema, 2⟩, [⟨.schema, 0⟩, ⟨.schema, 1⟩]⟩, ⟨⟨.schema, 0⟩, by decide +kernel⟩, rfl,
    rfl⟩

/-! ### One fact at least -/

/-- The content of the candidate that an operation takes off the agenda. -/
def takenBy (e : Engine Custom) (op : Operation Custom) : Set Edge :=
  {edge | ∃ c, op.taken? e = some (c, edge)}

/-- The content of the fact that an operation commits directly. -/
def loadedBy (e : Engine Custom) (op : Operation Custom) : Set Edge :=
  {edge | ∃ id matching, op = .commit id matching ∧ Adds e id edge (op.perform e)}

/-- What the operations are about, one after the other. -/
def gathered (what : Engine Custom → Operation Custom → Set Edge) (e : Engine Custom) :
    List (Operation Custom) → Set Edge
  | [] => ∅
  | op :: rest => what e op ∪ gathered what (op.perform e) rest

theorem contents_perform (keeps : ¬ op.Forgets) : (op.perform e).facts.contents ⊆
    e.facts.contents ∪ takenBy e op ∪ loadedBy e op := by
  cases e.effect keeps with
  | steady _ steady =>
    rw [steady.facts]
    exact fun edge old => .inl (.inl old)
  | fallback _ isOp =>
    subst isOp
    exact fun edge old => .inl (.inl old)
  | policy _ _ isOp =>
    subst isOp
    exact fun edge old => .inl (.inl old)
  | adds id edge matching isOp adds =>
    rw [adds.facts, FactBase.contents_eq (e.facts.extends_add id edge),
      FactBase.since_add adds.new]
    rintro edge' (old | rfl)
    · exact .inl (.inl old)
    · exact .inr ⟨id, matching, isOp, adds⟩
  | settles _ c edge _ taken settled =>
    cases settled with
    | enters _ new facts _ =>
      rw [facts, FactBase.contents_eq (e.facts.extends_add c.edge edge), FactBase.since_add new]
      rintro edge' (old | rfl)
      · exact .inl (.inl old)
      · exact .inl (.inr ⟨c, taken⟩)
    | keeps _ facts _ =>
      rw [facts]
      exact fun edge old => .inl (.inl old)

/-- Facts come from candidates and direct commits. -/
theorem contents_performAll (keeps : ∀ op ∈ ops, ¬ op.Forgets) : (e.performAll ops).facts.contents ⊆
    e.facts.contents ∪ gathered takenBy e ops ∪ gathered loadedBy e ops := by
  induction ops generalizing e with
  | nil => exact fun edge old => .inl (.inl old)
  | cons op rest ih =>
    obtain ⟨keepsFirst, keepsRest⟩ := List.forall_mem_cons.mp keeps
    intro edge mem
    rcases ih keepsRest mem with (before | taken) | loaded
    · rcases contents_perform keepsFirst before with (old | taken) | loaded
      · exact .inl (.inl old)
      · exact .inl (.inr (.inl taken))
      · exact .inr (.inl loaded)
    · exact .inl (.inr (.inr taken))
    · exact .inr (.inr loaded)

/-- The record follows the candidates. -/
theorem records_perform_of_ne (records : e.decisions.Records g keys) (mode : g.mode ≠ .atMostOne)
    (keeps : ¬ op.Forgets) :
    (op.perform e).decisions.Records g (keys ∪ g.keysOf (takenBy e op)) := by
  have idle : op.taken? e = none → keys ∪ g.keysOf (takenBy e op) = keys := by
    intro none
    simp [takenBy, none, Group.keysOf]
  cases e.effect keeps with
  | steady none steady =>
    rw [idle none, steady.decisions]
    exact records
  | fallback policy isOp =>
    rw [idle (isOp ▸ rfl), isOp]
    exact records.setFallback policy
  | policy relation policy isOp =>
    rw [idle (isOp ▸ rfl), isOp]
    exact records.add relation policy
  | adds id edge matching isOp adds =>
    rw [idle (isOp ▸ rfl), adds.decisions]
    exact records.committed_of_ne mode edge
  | settles _ c edge _ taken settled =>
    have only : takenBy e op = {edge} := by
      ext edge'
      simp [takenBy, taken, eq_comm]
    have decided := records.decide_of_ne mode edge c.score.read.1
    rw [only]
    cases settled with
    | enters _ _ _ decisions =>
      rw [decisions]
      exact decided.committed_of_ne mode edge
    | keeps _ _ decisions =>
      rw [decisions]
      exact decided

/-- The first candidate of a group is committed. -/
theorem Coherent.covered_perform (coherent : e.Coherent) (records : e.decisions.Records g keys)
    (covered : keys ⊆ g.keysOf e.facts.contents) (mode : g.mode ≠ .atMostOne)
    (keeps : ¬ op.Forgets) (decoding : op ≠ .step .oracle) :
    keys ∪ g.keysOf (takenBy e op) ⊆ g.keysOf (op.perform e).facts.contents := by
  have grown := Group.keysOf_mono (g := g) (e.extends_perform keeps).contents
  refine Set.union_subset (covered.trans grown) ?_
  rintro k ⟨edge, ⟨c, taken⟩, related, rfl⟩
  by_cases old : g.key edge ∈ keys
  · exact grown (covered old)
  · cases op with
    | step m =>
      cases m with
      | oracle => exact absurd rfl decoding
      | decoder =>
        have accepted : e.Accepted .decoder c edge :=
          ⟨some true, records.accepts mode related old c.score.read.1, rfl⟩
        refine ⟨edge, ?_, related, rfl⟩
        cases step_settles taken .decoder with
        | enters _ new facts _ =>
          refine ⟨c.edge, ?_⟩
          rw [Operation.perform, facts, FactBase.edge?_add new, if_pos rfl]
        | keeps known facts _ =>
          obtain ⟨edge', found⟩ := FactBase.contains_iff.mp (known accepted)
          have live := live_of_taken taken
          obtain rfl := Option.some.inj ((coherent.committed _ _ found).symm.trans live)
          refine ⟨c.edge, ?_⟩
          rw [Operation.perform, facts, found]
    | _ => cases taken

/-- The recorded groups are those of the candidates, and each of them has a committed fact. -/
theorem Coherent.covered_performAll (coherent : e.Coherent) (records : e.decisions.Records g keys)
    (covered : keys ⊆ g.keysOf e.facts.contents) (mode : g.mode ≠ .atMostOne)
    (keeps : ∀ op ∈ ops, ¬ op.Forgets) (decoding : .step .oracle ∉ ops) :
    (e.performAll ops).decisions.Records g (keys ∪ g.keysOf (gathered takenBy e ops)) ∧
      keys ∪ g.keysOf (gathered takenBy e ops) ⊆ g.keysOf (e.performAll ops).facts.contents := by
  induction ops generalizing e keys with
  | nil =>
    simp only [gathered, Group.keysOf_empty, Set.union_empty]
    exact ⟨records, covered⟩
  | cons op rest ih =>
    obtain ⟨keepsFirst, keepsRest⟩ := List.forall_mem_cons.mp keeps
    rw [List.mem_cons, not_or] at decoding
    obtain ⟨decodingFirst, decodingRest⟩ := decoding
    rw [gathered, Group.keysOf_union, ← Set.union_assoc]
    exact ih (coherent.perform op) (records_perform_of_ne records mode keepsFirst)
      (coherent.covered_perform records covered mode keepsFirst (Ne.symm decodingFirst))
      keepsRest decodingRest

/-- The recorded groups are those of the candidates that came off the agenda, and each of them has a
committed fact. A step commits a second fact of a group only where the others were committed
directly. -/
theorem Reachable.exactlyOne_kept (reachable : Reachable e) (mode : g.mode = .exactlyOne)
    (installable : Installable e g) (keeps : ∀ op ∈ ops, ¬ op.Forgets)
    (decoding : .step .oracle ∉ ops) :
    let start := e.addPolicy g.relation (.group g)
    let e' := start.performAll ops
    e'.decisions.Records g (g.keysOf (gathered takenBy start ops)) ∧
      (∀ edge, Commits e' .decoder edge → edge.relation = g.relation →
        g.key edge ∉ g.keysOf (gathered takenBy start ops) ∧
        ∀ other ∈ e'.facts.contents, other.relation = g.relation → g.key other = g.key edge →
          other ∈ gathered loadedBy start ops) ∧
      g.keysOf (gathered takenBy start ops) ⊆ g.keysOf e'.facts.contents ∧
      (∀ c, e'.agenda.pop.1 = .ok c → ∃ edge, e'.taken? = some (c, edge)) ∧
      ∀ fuel limit, ∃ n, (Engine.runWithin .decoder fuel limit e').engine =
        e'.performAll (.replicate n (.step .decoder)) := by
  intro start e'
  have coherent : start.Coherent := (reachable.next (.addPolicy g.relation (.group g))).coherent
  have notAtMost : g.mode ≠ .atMostOne := by simp [mode]
  obtain ⟨records, covered⟩ := coherent.covered_performAll installable.records
    (Set.empty_subset _) notAtMost keeps decoding
  rw [Set.empty_union] at records covered
  refine ⟨records, fun edge commits related => ?_, covered,
    fun _ => (coherent.performAll ops).exists_taken,
    fun fuel limit => runWithin_eq_performAll .decoder fuel limit e'⟩
  have new := commits.not_recorded records related
  refine ⟨new, fun other mem relatedOther same => ?_⟩
  rcases contents_performAll keeps mem with (old | taken) | loaded
  · exact absurd relatedOther (installable.without other old)
  · exact absurd ⟨other, taken, relatedOther, same⟩ new
  · exact loaded

theorem exactlyOne_kept_linkable : Reachable linkable ∧
    Installable linkable (perPoint .exactlyOne) ∧
    (∀ op ∈ threeLinks ++ [.step .decoder], ¬ op.Forgets) ∧
    .step .oracle ∉ threeLinks ++ [.step .decoder] ∧
    let start := linkable.addPolicy ⟨0⟩ (.group (perPoint .exactlyOne))
    let e' := start.performAll (threeLinks ++ [.step .decoder])
    let taken := gathered takenBy start (threeLinks ++ [.step .decoder])
    let edge : Edge := ⟨⟨0⟩, ⟨.temporary, 4⟩, [⟨.temporary, 0⟩, ⟨.temporary, 3⟩]⟩
    let other : Edge := ⟨⟨0⟩, ⟨.temporary, 2⟩, [⟨.temporary, 0⟩, ⟨.temporary, 1⟩]⟩
    e'.decisions.Records (perPoint .exactlyOne) ((perPoint .exactlyOne).keysOf taken) ∧
      Commits e' .decoder edge ∧
      (perPoint .exactlyOne).key edge ∉ (perPoint .exactlyOne).keysOf taken ∧
      other ∈ e'.facts.contents ∧
      other ∈ gathered loadedBy start (threeLinks ++ [.step .decoder]) ∧
      (perPoint .exactlyOne).keysOf taken ⊆ (perPoint .exactlyOne).keysOf e'.facts.contents := by
  have keeps : ∀ op ∈ threeLinks ++ [.step .decoder], ¬ op.Forgets := by decide +kernel
  have decoding : .step .oracle ∉ threeLinks ++ [.step .decoder] := by
    simp [threeLinks]
  refine ⟨reachable_linkable, installable_perPoint .exactlyOne, keeps, decoding, ?_⟩
  intro start e' taken edge other
  have commits : Commits e' .decoder edge :=
    ⟨⟨.temporary, 1⟩, by decide +kernel, by decide +kernel⟩
  have committed : other ∈ e'.facts.contents := ⟨⟨.temporary, 0⟩, by decide +kernel⟩
  obtain ⟨records, apart, covered, _⟩ := Reachable.exactlyOne_kept reachable_linkable rfl
    (installable_perPoint .exactlyOne) keeps decoding
  obtain ⟨new, loaded⟩ := apart edge commits rfl
  exact ⟨records, commits, new, committed, loaded other committed rfl rfl, covered⟩

/-- A second link from 1 is committed, since the first was committed directly. -/
theorem not_exactlyOne_kept_loaded : ¬ ∀ (e : Engine) (g : Group) (ops : List Operation),
    Reachable e → g.mode = .exactlyOne → Installable e g → (∀ op ∈ ops, ¬ op.Forgets) →
      .step .oracle ∉ ops →
      let e' := (e.addPolicy g.relation (.group g)).performAll ops
      ∀ edge, Commits e' .decoder edge → edge.relation = g.relation →
        g.key edge ∉ g.keysOf e'.facts.contents := by
  intro kept
  refine kept linkable (perPoint .exactlyOne) (threeLinks ++ [.step .decoder])
    reachable_linkable rfl (installable_perPoint .exactlyOne) (by decide +kernel) (by simp [threeLinks])
    ⟨⟨0⟩, ⟨.temporary, 4⟩, [⟨.temporary, 0⟩, ⟨.temporary, 3⟩]⟩
    ⟨⟨.temporary, 1⟩, by decide +kernel, by decide +kernel⟩ rfl ?_
  exact ⟨⟨⟨0⟩, ⟨.temporary, 2⟩, [⟨.temporary, 0⟩, ⟨.temporary, 1⟩]⟩,
    ⟨⟨.temporary, 0⟩, by decide +kernel⟩, rfl, rfl⟩

end Engine

end ScoredChaining
