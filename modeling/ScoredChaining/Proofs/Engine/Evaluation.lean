import Mathlib.Data.Set.Card
import ScoredChaining.Proofs.Engine.Labels

/-!
What the counts of an evaluation say.

* `Tally.compare`: the comparison of a set of facts with the gold facts.
* `Labels.Exact`: every gold fact is kept once, and each relation has as many gold facts as its
  count says.
* `Engine.Supervised`: the engines that operations lead to, where any fact may be made gold.
* `Engine.tally_documents`: the counts of such an engine are the comparison of the committed facts of
  its document with its gold facts, and the counts of several documents together are the sums.
-/

namespace ScoredChaining

variable {Custom : Type} [Decider Custom]

open Std

/-- How many of the facts are gold, how many others are of a relation that has gold facts, and how
many gold facts are missing. -/
noncomputable def Tally.compare (facts golds : Set Edge) : Tally where
  truePositives := (facts ∩ golds).ncard
  falsePositives := {x ∈ facts \ golds | ∃ y ∈ golds, y.relation = x.relation}.ncard
  falseNegatives := (golds \ facts).ncard

/-- Merging tallies adds their counts. -/
theorem Tally.foldl_merge (tallies : List Tally) (t : Tally) :
    tallies.foldl Tally.merge t =
      ⟨t.truePositives + (tallies.map Tally.truePositives).sum,
        t.falsePositives + (tallies.map Tally.falsePositives).sum,
        t.falseNegatives + (tallies.map Tally.falseNegatives).sum⟩ := by
  induction tallies generalizing t with
  | nil => rfl
  | cons s rest ih => simp [ih, Tally.merge, Nat.add_assoc]

/-- A set that is listed without repetitions has as many elements as the list. -/
theorem ncard_of_listed {α : Type} {S : Set α} {l : List α} (nodup : l.Nodup)
    (listed : ∀ x, x ∈ l ↔ x ∈ S) : S.ncard = l.length := by
  classical
  have same : S = (l.toFinset : Set α) := by
    ext x
    simp [listed]
  rw [same, Set.ncard_coe_finset, List.toFinset_card_of_nodup nodup]

/-! ### Gold facts -/

namespace Labels

variable {l : Labels}

/-- The gold facts as a set. -/
def golds (l : Labels) : Set Edge :=
  {x | l.contains x = true}

/-- Every gold fact is kept once, and the counts are those of the gold facts of the relations. -/
structure Exact (l : Labels) : Prop where
  nodup : l.gold.Nodup
  count : ∀ r, l.count r = (l.gold.filter (·.relation = r)).length

theorem mem_golds {x : Edge} : x ∈ l.golds ↔ x ∈ l.gold :=
  List.contains_iff_mem

theorem exact_empty : Exact empty :=
  ⟨List.nodup_nil, fun r => by simp [count, empty]⟩

theorem count_insert (gold : List Edge) (counts : ExtTreeMap RelationId Nat) (r s : RelationId)
    (n : Nat) :
    count ⟨gold, counts.insert r n⟩ s = if r = s then n else (counts[s]?).getD 0 := by
  simp only [count, ExtTreeMap.getElem?_insert, LawfulEqCmp.compare_eq_iff_eq]
  split <;> rfl

/-- A fact that is made gold is counted for its relation if it is new. -/
theorem Exact.add (exact : l.Exact) (x : Edge) : (l.add x).2.Exact := by
  unfold Labels.add
  split
  · exact exact
  · rename_i new
    refine ⟨List.nodup_cons.mpr ⟨fun old => new (List.contains_iff_mem.mpr old), exact.nodup⟩, ?_⟩
    intro r
    rw [count_insert]
    by_cases same : x.relation = r
    · subst same
      simp [exact.count]
    · rw [if_neg same]
      exact (exact.count r).trans (by simp [same])

theorem finite_golds (l : Labels) : l.golds.Finite :=
  (List.finite_toSet l.gold).subset fun _ isGold => mem_golds.mp isGold

namespace Exact

theorem ncard_golds (exact : l.Exact) : l.golds.ncard = l.size :=
  ncard_of_listed exact.nodup fun _ => mem_golds.symm

theorem ncard_relation (exact : l.Exact) (r : RelationId) :
    {x ∈ l.golds | x.relation = r}.ncard = l.count r := by
  rw [exact.count]
  refine ncard_of_listed (exact.nodup.filter _) fun x => ?_
  simp [mem_golds]

theorem count_pos_iff (exact : l.Exact) (r : RelationId) :
    0 < l.count r ↔ ∃ y ∈ l.golds, y.relation = r := by
  rw [exact.count, List.length_pos_iff_exists_mem]
  simp [mem_golds]

/-- The counts for a list of facts of relations that have gold facts, each of them listed once. -/
theorem tally_eq (exact : l.Exact) {predicted : List Edge} {facts : Set Edge}
    (nodup : predicted.Nodup)
    (listed : ∀ x, x ∈ predicted ↔ x ∈ facts ∧ ∃ y ∈ l.golds, y.relation = x.relation) :
    l.tally predicted none = .compare facts l.golds := by
  have found : (facts ∩ l.golds).ncard = (distinct (predicted.filter l.contains)).length := by
    refine ncard_of_listed (nodup_distinct _) fun x => ?_
    rw [mem_distinct, List.mem_filter, listed]
    constructor
    · rintro ⟨⟨isFact, _⟩, isGold⟩
      exact ⟨isFact, isGold⟩
    · rintro ⟨isFact, isGold⟩
      exact ⟨⟨isFact, x, isGold, rfl⟩, isGold⟩
  have wrong : {x ∈ facts \ l.golds | ∃ y ∈ l.golds, y.relation = x.relation}.ncard =
      (predicted.filter fun x => !l.contains x).length := by
    refine ncard_of_listed (nodup.filter _) fun x => ?_
    rw [List.mem_filter, listed]
    simp only [golds, Set.mem_ofPred_eq, Set.mem_sdiff, Bool.not_eq_true', Bool.not_eq_true]
    tauto
  have missing : (l.golds \ facts).ncard = l.size - (facts ∩ l.golds).ncard := by
    rw [← exact.ncard_golds, ← Set.ncard_inter_add_ncard_sdiff_eq_ncard l.golds facts
      (finite_golds l), Set.inter_comm, Nat.add_sub_cancel_left]
  rw [Tally.compare, missing, found, wrong, tally]
  simp [size, List.filter_true]

end Exact

end Labels

namespace Engine

variable {e : Engine Custom}

/-! ### The facts of a document -/

/-- The committed facts of the document. -/
def documentFacts (e : Engine Custom) : Set Edge :=
  {x | ∃ id : EdgeId, id.isSchema = false ∧ e.facts.edge? id = some x}

/-- Every committed fact is listed with its content, and no content twice. -/
theorem Coherent.listed (coherent : e.Coherent) :
    (∀ id x, (id, x) ∈ e.facts.toList ↔ e.facts.edge? id = some x) ∧
      ∀ p : EdgeId × Edge → Bool, ((e.facts.toList.filter p).map Prod.snd).Nodup := by
  have listed : ∀ id x, (id, x) ∈ e.facts.toList ↔ e.facts.edge? id = some x := by
    intro id x
    simp only [FactBase.toList, List.mem_filterMap, Option.map_eq_some_iff, Prod.mk.injEq]
    constructor
    · rintro ⟨d, _, y, found, rfl, rfl⟩
      exact found
    · intro found
      exact ⟨id, (coherent.facts.order id).mpr ⟨x, found⟩, x, found, rfl, rfl⟩
  refine ⟨listed, fun p => ?_⟩
  have nodup : e.facts.toList.Nodup := by
    apply coherent.facts.nodupOrder.filterMap
    intro d d' x isX isX'
    simp only [Option.mem_def, Option.map_eq_some_iff] at isX isX'
    obtain ⟨_, _, rfl⟩ := isX
    obtain ⟨_, _, same⟩ := isX'
    exact (Prod.mk.inj same).1.symm
  -- Committed facts are live, and a live fact is told by its witness.
  refine (nodup.filter p).map_on ?_
  rintro ⟨d, x⟩ memX ⟨d', y⟩ memY same
  have committed := (listed d x).mp (List.mem_filter.mp memX).1
  have committed' := (listed d' y).mp (List.mem_filter.mp memY).1
  obtain rfl : x = y := same
  rw [coherent.graph.eq_of_head (coherent.committed _ _ committed)
    (coherent.committed _ _ committed') rfl]

/-- The counts of an engine compare the facts of its document with the gold facts. -/
theorem Coherent.tally_eq (coherent : e.Coherent) (exact : e.labels.Exact) :
    e.tally = .compare e.documentFacts e.labels.golds := by
  obtain ⟨listed, nodup⟩ := coherent.listed
  refine exact.tally_eq (nodup _) fun x => ?_
  simp only [List.mem_map, List.mem_filter, Prod.exists, listed, documentFacts, Set.mem_ofPred_eq,
    ← exact.count_pos_iff, Bool.and_eq_true, Bool.not_eq_true', decide_eq_true_eq]
  constructor
  · rintro ⟨id, y, ⟨committed, temporary, counted⟩, rfl⟩
    exact ⟨⟨id, temporary, committed⟩, counted⟩
  · rintro ⟨⟨id, temporary, committed⟩, counted⟩
    exact ⟨id, x, ⟨committed, temporary, counted⟩, rfl⟩

/-! ### Engines under supervision -/

/-- The engines that operations make of a new one. At any time a fact may be made gold, whether it
is live or not, and the gold facts may be forgotten. -/
inductive Supervised : Engine Custom → Prop where
  | start (settings : Settings) (priority : Priority) : Supervised (.withPriority settings priority)
  | next {e : Engine Custom} : Supervised e → (op : Operation Custom) → Supervised (op.perform e)
  | label {e : Engine Custom} : Supervised e → (x : Edge) →
      Supervised { e with labels := (e.labels.add x).2 }
  | unlabel {e : Engine Custom} : Supervised e → Supervised { e with labels := e.labels.clear }

theorem Reachable.supervised (reachable : Reachable e) : Supervised e := by
  induction reachable with
  | start settings priority => exact .start settings priority
  | next _ op ih => exact ih.next op

theorem Coherent.withLabels (coherent : e.Coherent) (labels : Labels) :
    Coherent { e with labels } :=
  coherent.of_settles ⟨rfl, rfl, rfl, rfl, coherent.agenda, fun _ mem => mem, rfl⟩

/-- An operation makes at most one fact gold, or forgets all. -/
theorem Coherent.exact_perform (coherent : e.Coherent) (exact : e.labels.Exact)
    (op : Operation Custom) : (op.perform e).labels.Exact := by
  by_cases keeps : op.KeepsLabels
  · rw [(coherent.grown_perform op keeps).labels]
    exact exact
  · cases op with
    | addGold id =>
      rw [Operation.perform, Engine.addGold]
      split
      · exact exact
      · exact exact.add _
    | clearDocument => exact Labels.exact_empty
    | _ => exact absurd trivial keeps

theorem Supervised.spec (supervised : Supervised e) : e.Coherent ∧ e.labels.Exact := by
  induction supervised with
  | start settings priority => exact ⟨.withPriority settings priority, Labels.exact_empty⟩
  | next _ op ih => exact ⟨ih.1.perform op, ih.1.exact_perform ih.2 op⟩
  | label _ x ih => exact ⟨ih.1.withLabels _, ih.2.add x⟩
  | unlabel _ ih => exact ⟨ih.1.withLabels _, Labels.exact_empty⟩

/-- The counts of an engine, for each of several documents, are the comparison of the committed facts
of its document with its gold facts. It does not find more gold facts than there are, and a relation
has as many gold facts as its count says. Merged, the counts add up. -/
theorem tally_documents (documents : List (Engine Custom))
    (supervised : ∀ e ∈ documents, Supervised e) :
    (∀ e ∈ documents, e.tally = .compare e.documentFacts e.labels.golds ∧
      e.tally.truePositives ≤ e.labels.size ∧
      ∀ r, e.labels.count r = {x ∈ e.labels.golds | x.relation = r}.ncard) ∧
    (documents.map tally).foldl Tally.merge .zero =
      ⟨(documents.map fun e => (e.documentFacts ∩ e.labels.golds).ncard).sum,
        (documents.map fun e => {x ∈ e.documentFacts \ e.labels.golds |
          ∃ y ∈ e.labels.golds, y.relation = x.relation}.ncard).sum,
        (documents.map fun e => (e.labels.golds \ e.documentFacts).ncard).sum⟩ := by
  have each : ∀ e ∈ documents, e.tally = .compare e.documentFacts e.labels.golds :=
    fun e mem => (supervised e mem).spec.1.tally_eq (supervised e mem).spec.2
  constructor
  · intro e mem
    have exact := (supervised e mem).spec.2
    refine ⟨each e mem, ?_, fun r => (exact.ncard_relation r).symm⟩
    rw [each e mem, ← exact.ncard_golds]
    exact Set.ncard_le_ncard Set.inter_subset_right (Labels.finite_golds _)
  · rw [List.map_congr_left each, Tally.foldl_merge]
    simp [Tally.zero, Tally.compare, Function.comp_def]

/-- Three links, the first two of which are committed, and the first and the last of which are
gold. -/
def marked : Engine :=
  linkable.performAll
    [.makeEdgeFromValues ⟨0⟩ [.int 1, .int 2] .temporary,
      .makeEdgeFromValues ⟨0⟩ [.int 1, .int 3] .temporary,
      .makeEdgeFromValues ⟨0⟩ [.int 1, .int 4] .temporary, .commit ⟨.temporary, 0⟩ true,
      .commit ⟨.temporary, 1⟩ true, .addGold ⟨.temporary, 0⟩, .addGold ⟨.temporary, 2⟩]

/-- The document after that has a gold link and no committed one. -/
def remarked : Engine :=
  marked.performAll [.clearDocument, .makeEdgeFromValues ⟨0⟩ [.int 1, .int 2] .temporary,
    .addGold ⟨.temporary, 0⟩]

theorem reachable_marked : Reachable marked :=
  reachable_linkable.performAll _

/-- One link is found, one is wrong, and two are missing in the two documents together. -/
theorem tally_documents_marked :
    (∀ e ∈ [marked, remarked], Supervised e) ∧
      (marked.documentFacts ∩ marked.labels.golds).ncard = 1 ∧
      ([marked, remarked].map fun e => (e.labels.golds \ e.documentFacts).ncard).sum = 2 ∧
      ([marked, remarked].map tally).foldl Tally.merge .zero = ⟨1, 1, 2⟩ := by
  have supervised : ∀ e ∈ [marked, remarked], Supervised e := by
    rw [List.forall_mem_cons, List.forall_mem_singleton]
    exact ⟨reachable_marked.supervised, (reachable_marked.performAll _).supervised⟩
  obtain ⟨each, merged⟩ := tally_documents [marked, remarked] supervised
  have first : marked.tally = ⟨1, 1, 1⟩ := by decide +kernel
  have both : ([marked, remarked].map tally).foldl Tally.merge .zero = ⟨1, 1, 2⟩ := by
    decide +kernel
  refine ⟨supervised, ?_, ?_, both⟩
  · exact congrArg Tally.truePositives ((each marked (by simp)).1.symm.trans first)
  · exact congrArg Tally.falseNegatives (merged.symm.trans both)

end Engine

end ScoredChaining
