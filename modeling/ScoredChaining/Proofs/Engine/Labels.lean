import ScoredChaining.Proofs.Engine.Steps
import ScoredChaining.Proofs.Engine.Verdicts
import ScoredChaining.Proofs.Rule.Atoms

/-!
The labels of facts, told by the lines of the document.

A label line makes a fact gold, and the engine keeps gold facts by their content, which is made of
the numbers of a relation and of nodes. What a line says is an atom, a relation applied to values.

* `Engine.Labelled`: the gold facts are live, and the atoms that they say are those of the label
  lines.
* `Engine.Labelled.label_eq`: so the label of a live fact is told by its atom (`Atom.labelAmong`).
* `Engine.Labelled.workAll`: loading, steps, runs and all operations that neither forget nor make
  gold keep this, with the atoms of the label lines that were loaded (`Engine.goldAtoms`).
* `Engine.labels_workAll`: the labels after any such work on a document, and what a step does with
  them that follows the gold facts.
-/

namespace ScoredChaining

variable {Custom : Type} [Decider Custom]

/-! ### Gold facts and their counts -/

namespace Labels

variable {l : Labels} {x : Edge}

/-- The relations with a count are those of the gold facts. -/
def Counted (l : Labels) : Prop :=
  ∀ r, l.perRelation.contains r = true ↔ ∃ x ∈ l.gold, x.relation = r

theorem counted_empty : Counted empty := by
  intro r
  simp [empty]

theorem mem_gold_add {y : Edge} : y ∈ (l.add x).2.gold ↔ y = x ∨ y ∈ l.gold := by
  unfold add
  split
  · rename_i known
    have mem : x ∈ l.gold := List.contains_iff_mem.mp known
    refine ⟨.inr, ?_⟩
    rintro (rfl | old)
    · exact mem
    · exact old
  · exact List.mem_cons

theorem Counted.add (counted : l.Counted) (x : Edge) : (l.add x).2.Counted := by
  intro r
  simp only [mem_gold_add]
  unfold Labels.add
  split
  · rename_i known
    have mem : x ∈ l.gold := List.contains_iff_mem.mp known
    rw [counted]
    constructor
    · rintro ⟨y, old, same⟩
      exact ⟨y, .inr old, same⟩
    · rintro ⟨y, rfl | old, same⟩
      · exact ⟨y, mem, same⟩
      · exact ⟨y, old, same⟩
  · have inserted : ((l.perRelation.insert x.relation (l.count x.relation + 1)).contains r) = true ↔
        x.relation = r ∨ l.perRelation.contains r = true := by
      simp [Std.ExtTreeMap.contains_insert]
    rw [inserted, counted]
    constructor
    · rintro (rfl | ⟨y, old, same⟩)
      · exact ⟨x, .inl rfl, rfl⟩
      · exact ⟨y, .inr old, same⟩
    · rintro ⟨y, rfl | old, same⟩
      · exact .inl same
      · exact .inr ⟨y, old, same⟩

end Labels

/-- What gold atoms say about an atom. -/
def Atom.labelAmong (golds : List Atom) (a : Atom) : Label :=
  if a ∈ golds then .gold
  else if ∃ b ∈ golds, b.relation = a.relation then .notGold
  else .unknown

/-- The atom that a line makes gold. -/
def FactLine.gold? : FactLine → Option Atom
  | .label relation values => some ⟨relation, values⟩
  | _ => none

/-- The operation neither forgets the document nor makes a fact gold by hand. -/
def Operation.KeepsLabels : Operation Custom → Prop
  | .addGold _ => False
  | .clearDocument => False
  | _ => True

/-- The lines that loading applies: those before the first that fails. -/
def Engine.applied (e : Engine Custom) : List FactLine → List FactLine
  | [] => []
  | line :: rest =>
    match e.loadLine line with
    | (.error _, _) => []
    | (.ok (), e) => line :: e.applied rest

/-- A piece of work on a document. -/
inductive Task (Custom : Type := Empty) where
  | load (lines : List FactLine)
  | operate (op : Operation Custom)
  | run (mode : Mode) (fuel : Nat) (limit : Option Nat)

namespace Task

/-- The engine after a piece of work, which may have failed. -/
def perform (e : Engine Custom) : Task Custom → Engine Custom
  | .load lines => (e.load lines).2
  | .operate op => op.perform e
  | .run mode fuel limit => (Engine.runWithin mode fuel limit e).engine

/-- The atoms of the label lines that are loaded. -/
def golds (e : Engine Custom) : Task Custom → List Atom
  | .load lines => (e.applied lines).filterMap FactLine.gold?
  | _ => []

/-- The work neither forgets the document nor makes a fact gold by hand. -/
def KeepsLabels : Task Custom → Prop
  | .operate op => op.KeepsLabels
  | _ => True

end Task

/-- Facts are of the same relation just if their atoms are. -/
theorem Graph.WellFormed.relation_eq_iff {g : Graph} (wf : g.WellFormed) {id d : EdgeId}
    {edge other : Edge} {a b : Atom} (live : g.edges.get? id = some edge)
    (isAtom : g.atom? id = some a) (live' : g.edges.get? d = some other)
    (isAtom' : g.atom? d = some b) : edge.relation = other.relation ↔ a.relation = b.relation := by
  obtain ⟨x, R, liveX, fits, name⟩ := wf.fits_of_atom? isAtom
  obtain ⟨y, R', liveY, fits', name'⟩ := wf.fits_of_atom? isAtom'
  obtain rfl := Option.some.inj (live.symm.trans liveX)
  obtain rfl := Option.some.inj (live'.symm.trans liveY)
  rw [← name, ← name']
  constructor
  · intro same
    have sameRelation := fits.relation.symm.trans (same ▸ fits'.relation)
    rw [Option.some.inj sameRelation]
  · exact wf.schema.eq_of_name fits.relation fits'.relation

namespace Engine

variable {e e' e'' : Engine Custom} {golds : List Atom}

/-! ### Labels by atoms -/

/-- The gold facts are live, and say these atoms. -/
structure Labelled (e : Engine Custom) (golds : List Atom) : Prop where
  coherent : e.Coherent
  made : ∀ a ∈ golds, ∃ id edge, e.graph.edges.get? id = some edge ∧ e.graph.atom? id = some a ∧
    edge ∈ e.labels.gold
  only : ∀ edge ∈ e.labels.gold, ∃ id, ∃ a ∈ golds, e.graph.edges.get? id = some edge ∧
    e.graph.atom? id = some a
  counted : e.labels.Counted

namespace Labelled

theorem empty (coherent : e.Coherent) (unlabelled : e.labels = .empty) : Labelled e [] :=
  ⟨coherent, by simp, by simp [unlabelled, Labels.empty], unlabelled ▸ Labels.counted_empty⟩

/-- A live fact is gold just if its atom is. -/
theorem mem_gold_iff (labelled : Labelled e golds) {id : EdgeId} {edge : Edge} {a : Atom}
    (live : e.graph.edges.get? id = some edge) (isAtom : e.graph.atom? id = some a) :
    edge ∈ e.labels.gold ↔ a ∈ golds := by
  have wf := labelled.coherent.graph
  constructor
  · intro isGold
    obtain ⟨d, b, mem, live', isAtom'⟩ := labelled.only edge isGold
    obtain rfl := wf.eq_of_head live live' rfl
    rwa [Option.some.inj (isAtom.symm.trans isAtom')]
  · intro mem
    obtain ⟨d, other, live', isAtom', isGold⟩ := labelled.made a mem
    obtain rfl := wf.atom?_injective isAtom isAtom'
    rwa [Option.some.inj (live.symm.trans live')]

/-- The relation of a live fact has gold facts just if its name stands in a gold atom. -/
theorem contains_iff (labelled : Labelled e golds) {id : EdgeId} {edge : Edge} {a : Atom}
    (live : e.graph.edges.get? id = some edge) (isAtom : e.graph.atom? id = some a) :
    e.labels.perRelation.contains edge.relation = true ↔ ∃ b ∈ golds, b.relation = a.relation := by
  have wf := labelled.coherent.graph
  rw [labelled.counted]
  constructor
  · rintro ⟨other, isGold, same⟩
    obtain ⟨d, b, mem, live', isAtom'⟩ := labelled.only other isGold
    exact ⟨b, mem, (wf.relation_eq_iff live' isAtom' live isAtom).mp same⟩
  · rintro ⟨b, mem, same⟩
    obtain ⟨d, other, live', isAtom', isGold⟩ := labelled.made b mem
    exact ⟨other, isGold, (wf.relation_eq_iff live' isAtom' live isAtom).mpr same⟩

/-- The label of a live fact is told by its atom. -/
theorem label_eq (labelled : Labelled e golds) {id : EdgeId} {edge : Edge} {a : Atom}
    (live : e.graph.edges.get? id = some edge) (isAtom : e.graph.atom? id = some a) :
    e.labels.label edge = a.labelAmong golds := by
  have isGold : e.labels.contains edge = true ↔ a ∈ golds :=
    List.contains_iff_mem.trans (labelled.mem_gold_iff live isAtom)
  rw [Labels.label, Atom.labelAmong]
  simp only [isGold, labelled.contains_iff live isAtom]

end Labelled

/-! ### Work that labels nothing -/

/-- The graph grows, and the gold facts stay. -/
structure Grown (e e' : Engine Custom) : Prop where
  coherent : e'.Coherent
  graph : e.graph.Extends e'.graph
  labels : e'.labels = e.labels

namespace Grown

theorem refl (coherent : e.Coherent) : Grown e e :=
  ⟨coherent, .refl _, rfl⟩

theorem trans (first : Grown e e') (second : Grown e' e'') : Grown e e'' :=
  ⟨second.coherent, first.graph.trans second.graph, second.labels.trans first.labels⟩

end Grown

theorem Labelled.grown (labelled : Labelled e golds) (grown : Grown e e') : Labelled e' golds := by
  have wf := labelled.coherent.graph
  refine ⟨grown.coherent, fun a mem => ?_, fun edge isGold => ?_, grown.labels ▸ labelled.counted⟩
  · obtain ⟨id, edge, live, isAtom, isGold⟩ := labelled.made a mem
    exact ⟨id, edge, grown.graph.edges _ _ live, wf.atom?_mono grown.graph isAtom,
      grown.labels ▸ isGold⟩
  · obtain ⟨id, a, mem, live, isAtom⟩ := labelled.only edge (grown.labels ▸ isGold)
    exact ⟨id, a, mem, grown.graph.edges _ _ live, wf.atom?_mono grown.graph isAtom⟩

theorem labels_addCandidate (e : Engine Custom) (id : EdgeId) (score : Score) :
    (e.addCandidate id score).2.labels = e.labels := by
  unfold addCandidate
  split
  · rfl
  · split
    · rfl
    · split <;> rfl

theorem labels_reprioritize (e : Engine Custom) (ids : List EdgeId) :
    (e.reprioritize ids).2.labels = e.labels := by
  induction ids generalizing e with
  | nil => rfl
  | cons id rest ih =>
    rw [reprioritize]
    split
    · rfl
    · split
      · rfl
      · exact ih _

/-- Only making a fact gold and forgetting the document change the gold facts. -/
theorem Coherent.grown_perform (coherent : e.Coherent) (op : Operation Custom)
    (keeps : op.KeepsLabels) : Grown e (op.perform e) := by
  have remembers : op ≠ .clearDocument := by
    rintro rfl
    exact keeps
  refine ⟨coherent.perform op, (coherent.continues_perform remembers).graph, ?_⟩
  cases op with
  | addRule rule scorer =>
    rw [Operation.perform, Engine.addRule]
    split <;> rfl
  | addCandidate id score => exact labels_addCandidate e id score
  | commit id matching =>
    rw [Operation.perform, (coherent.works_commitWith id matching).others]
  | step mode => rw [Operation.perform, (coherent.works_step mode).others]
  | setPriority priority => exact labels_reprioritize { e with priority } _
  | addGold id => exact keeps.elim
  | clearDocument => exact keeps.elim
  | _ => rfl

/-! ### Loading -/

/-- A fact that is made from values says them. -/
theorem Coherent.makeFact_spec (coherent : e.Coherent) (relation : String) (values : List Value)
    (partition : Partition) : Grown e (e.makeFact relation values partition).2 ∧
      ∀ id, (e.makeFact relation values partition).1 = .ok id →
        (e.makeFact relation values partition).2.graph.atom? id = some ⟨relation, values⟩ := by
  rw [Engine.makeFact, requireRelation, Schema.require]
  cases found : e.graph.schema.find? relation with
  | none => exact ⟨.refl coherent, by simp [Except.mapError]⟩
  | some r =>
    obtain ⟨grows, spec⟩ := Graph.makeEdgeFromValues_spec coherent.graph r values partition
    simp only [Except.mapError, makeEdgeFromValues]
    generalize e.graph.makeEdgeFromValues r values partition = answer at grows spec
    obtain ⟨result, g⟩ := answer
    refine ⟨⟨coherent.withGraph grows.wellFormed grows.extends_, grows.extends_, rfl⟩, ?_⟩
    intro id made
    cases result with
    | error failure => cases made
    | ok d =>
      obtain rfl := Except.ok.inj made
      obtain ⟨edge, R, live, rfl, fits⟩ := spec d rfl
      obtain ⟨R', isR, name⟩ := Schema.relation?_of_find? found
      obtain rfl := Option.some.inj ((grows.extends_.schema.relation isR).symm.trans fits.relation)
      rw [fits.atom? live, name]

theorem Coherent.grown_commitFact (coherent : e.Coherent) (relation : String) (values : List Value)
    (partition : Partition) (matching : Bool) :
    Grown e (e.commitFact relation values partition matching).2 := by
  have made := (coherent.makeFact_spec relation values partition).1
  rw [Engine.commitFact]
  generalize e.makeFact relation values partition = answer at made
  obtain ⟨_ | id, e₁⟩ := answer
  · exact made
  · exact made.trans (made.coherent.grown_perform (.commit id matching) trivial)

theorem Coherent.grown_declareDocuments (coherent : e.Coherent) : Grown e e.declareDocuments.2 := by
  rw [declareDocuments]
  split
  · exact .refl coherent
  · exact coherent.grown_perform (.declare documentRelation [documentType]) trivial

/-- A live fact that is made gold adds its atom. -/
theorem Labelled.addGold (labelled : Labelled e golds) {id : EdgeId} {a : Atom}
    (isAtom : e.graph.atom? id = some a) : Labelled (e.addGold id).2 (golds ++ [a]) := by
  obtain ⟨edge, R, live, _, _⟩ := labelled.coherent.graph.fits_of_atom? isAtom
  have coherent : (e.addGold id).2.Coherent := labelled.coherent.perform (.addGold id)
  have added : (e.addGold id).2 = { e with labels := (e.labels.add edge).2 } := by
    rw [Engine.addGold, Graph.edge_eq_ok_iff.mpr live]
  rw [added] at coherent ⊢
  refine ⟨coherent, fun b mem => ?_, fun other isGold => ?_, labelled.counted.add edge⟩
  · rcases List.mem_append.mp mem with old | new
    · obtain ⟨d, other, live', isAtom', isGold⟩ := labelled.made b old
      exact ⟨d, other, live', isAtom', Labels.mem_gold_add.mpr (.inr isGold)⟩
    · obtain rfl := List.mem_singleton.mp new
      exact ⟨id, edge, live, isAtom, Labels.mem_gold_add.mpr (.inl rfl)⟩
  · rcases Labels.mem_gold_add.mp isGold with rfl | old
    · exact ⟨id, a, List.mem_append_right _ (List.mem_singleton_self a), live, isAtom⟩
    · obtain ⟨d, b, mem, live', isAtom'⟩ := labelled.only other old
      exact ⟨d, b, List.mem_append_left _ mem, live', isAtom'⟩

/-- A line that is loaded adds the atom that it makes gold, and a line that fails adds none. -/
theorem Labelled.loadLine (labelled : Labelled e golds) (line : FactLine) :
    (∀ failure, (e.loadLine line).1 = .error failure → Labelled (e.loadLine line).2 golds) ∧
      ((e.loadLine line).1 = .ok () →
        Labelled (e.loadLine line).2 (golds ++ line.gold?.toList)) := by
  have coherent := labelled.coherent
  -- Only label lines touch the gold facts.
  have of_grown : line.gold? = none → Grown e (e.loadLine line).2 →
      (∀ failure, (e.loadLine line).1 = .error failure → Labelled (e.loadLine line).2 golds) ∧
        ((e.loadLine line).1 = .ok () →
          Labelled (e.loadLine line).2 (golds ++ line.gold?.toList)) := by
    intro unlabelled grown
    rw [unlabelled, Option.toList_none, List.append_nil]
    exact ⟨fun _ _ => labelled.grown grown, fun _ => labelled.grown grown⟩
  cases line with
  | declaration relation types =>
    exact of_grown rfl (coherent.grown_perform (.declare relation types) trivial)
  | schemaFact relation values =>
    exact of_grown rfl (coherent.grown_commitFact relation values .schema false)
  | fact relation values => exact of_grown rfl (coherent.grown_commitFact relation values _ _)
  | startDocument id =>
    refine of_grown rfl ?_
    have declared := coherent.grown_declareDocuments
    rw [Engine.loadLine]
    generalize e.declareDocuments = answer at declared
    obtain ⟨_ | _, e₁⟩ := answer
    · exact declared
    · exact declared.trans (declared.coherent.grown_commitFact documentRelation [.str id] _ _)
  | label relation values =>
    obtain ⟨grown, content⟩ := coherent.makeFact_spec relation values .temporary
    rw [Engine.loadLine]
    generalize e.makeFact relation values .temporary = answer at grown content
    obtain ⟨failure | id, e₁⟩ := answer
    · exact ⟨fun _ _ => labelled.grown grown, fun ok => by cases ok⟩
    · have isAtom := content id rfl
      refine ⟨fun failure failed => ?_, fun _ => (labelled.grown grown).addGold isAtom⟩
      -- a fact that was just made can be made gold
      obtain ⟨edge, _, live, _⟩ := grown.coherent.graph.fits_of_atom? isAtom
      have live : e₁.graph.edge id = .ok edge := Graph.edge_eq_ok_iff.mpr live
      simp [Engine.addGold, live, Except.map] at failed

/-- Loading that succeeds applies all lines. -/
theorem applied_of_ok {lines : List FactLine} (loaded : (e.load lines).1 = .ok ()) :
    e.applied lines = lines := by
  induction lines generalizing e with
  | nil => rfl
  | cons line rest ih =>
    rw [Engine.load] at loaded
    rw [applied]
    generalize e.loadLine line = answer at loaded ⊢
    obtain ⟨_ | _, e₁⟩ := answer
    · cases loaded
    · exact congrArg _ (ih loaded)

theorem Labelled.load (labelled : Labelled e golds) (lines : List FactLine) :
    Labelled (e.load lines).2 (golds ++ (e.applied lines).filterMap FactLine.gold?) := by
  induction lines generalizing e golds with
  | nil => simpa [Engine.load, applied] using labelled
  | cons line rest ih =>
    obtain ⟨failed, loaded⟩ := labelled.loadLine line
    rw [Engine.load, applied]
    generalize e.loadLine line = answer at failed loaded
    obtain ⟨failure | _, e₁⟩ := answer
    · simpa using failed failure rfl
    · have onwards := ih (loaded rfl)
      rw [List.append_assoc] at onwards
      cases isGold : line.gold? <;> simpa [isGold, List.filterMap_cons] using onwards

/-! ### Work on a document -/

/-- The engine after pieces of work. -/
def workAll (e : Engine Custom) (tasks : List (Task Custom)) : Engine Custom :=
  tasks.foldl Task.perform e

/-- The atoms of the label lines that were loaded. -/
def goldAtoms (e : Engine Custom) : List (Task Custom) → List Atom
  | [] => []
  | task :: rest => task.golds e ++ (task.perform e).goldAtoms rest

theorem Labelled.perform (labelled : Labelled e golds) (task : Task Custom)
    (keeps : task.KeepsLabels) : Labelled (task.perform e) (golds ++ task.golds e) := by
  cases task with
  | load lines => exact labelled.load lines
  | operate op =>
    have none : (Task.operate op).golds e = [] := rfl
    rw [none, List.append_nil]
    exact labelled.grown (labelled.coherent.grown_perform op keeps)
  | run mode fuel limit =>
    have none : (Task.run mode fuel limit).golds e = [] := rfl
    rw [none, List.append_nil]
    have steps : ∀ e', Grown e e' → Grown e (e'.step mode).2 := fun _ grown =>
      grown.trans (grown.coherent.grown_perform (.step mode) trivial)
    exact labelled.grown (runWithin_keeps steps (.refl labelled.coherent) fuel limit)

theorem Labelled.workAll (labelled : Labelled e golds) (tasks : List (Task Custom))
    (keeps : ∀ task ∈ tasks, task.KeepsLabels) :
    Labelled (e.workAll tasks) (golds ++ e.goldAtoms tasks) := by
  induction tasks generalizing e golds with
  | nil => simpa [Engine.workAll, goldAtoms] using labelled
  | cons task rest ih =>
    obtain ⟨first, others⟩ := List.forall_mem_cons.mp keeps
    have onwards := ih (labelled.perform task first) others
    rwa [List.append_assoc] at onwards

/-! ### Steps that follow the gold facts -/

/-- The next step that follows the gold facts rejects the candidate that it takes. -/
def RejectsNext (e : Engine Custom) : Prop :=
  ∃ s e', e.step .oracle = (.ok s, e') ∧ s.outcome = .rejected

/-- A step that follows the gold facts rejects a candidate just if it is not gold and the policies
do not fail. If they do, nothing is decided about it. -/
theorem Coherent.rejectsNext_iff (coherent : e.Coherent) {c : Candidate} {edge : Edge}
    (taken : e.taken? = some (c, edge)) :
    (e.RejectsNext ↔ e.labels.label edge ≠ .gold ∧
        ∀ failure, (e.decisions.decide edge c.score.read.1).1 ≠ .error failure) ∧
      ∀ failure, (e.decisions.decide edge c.score.read.1).1 = .error failure →
        e.step .oracle = (.error (.decision failure), e.asked c edge) := by
  have verdict := coherent.step_verdict taken .oracle
  rw [RejectsNext]
  generalize e.step .oracle = answer at verdict
  cases verdict with
  | fails answer =>
    refine ⟨iff_of_false (by rintro ⟨_, _, same, _⟩; cases same) fun h => h.2 _ answer, ?_⟩
    intro failure failed
    rw [Except.error.inj (answer.symm.trans failed)]
  | rejects answer refused =>
    have notGold : e.labels.label edge ≠ .gold := by simpa [decided] using refused
    exact ⟨iff_of_true ⟨_, _, rfl, rfl⟩ ⟨notGold, by simp [answer]⟩, by simp [answer]⟩
  | commits answer accepted new committed =>
    have isGold : e.labels.label edge = .gold := by simpa [decided] using accepted
    exact ⟨iff_of_false (by rintro ⟨_, _, same, rejected⟩; cases same; cases rejected)
      fun h => h.1 isGold, by simp [answer]⟩
  | knows answer accepted known =>
    have isGold : e.labels.label edge = .gold := by simpa [decided] using accepted
    exact ⟨iff_of_false (by rintro ⟨_, _, same, rejected⟩; cases same; cases rejected)
      fun h => h.1 isGold, by simp [answer]⟩

/-- After any work on a document that neither forgets it nor makes facts gold by hand, the label of
a live fact is told by its atom and the label lines that were loaded. A step that follows the gold
facts rejects the candidate that it takes just if that is not gold, unless the policies fail. -/
theorem labels_workAll (reachable : Reachable e) (unlabelled : e.labels = .empty)
    (tasks : List (Task Custom)) (keeps : ∀ task ∈ tasks, task.KeepsLabels) :
    let e' := e.workAll tasks
    (∀ id edge, e'.graph.edges.get? id = some edge → ∃ a, e'.graph.atom? id = some a ∧
        e'.labels.label edge = a.labelAmong (e.goldAtoms tasks)) ∧
      ∀ c edge, e'.taken? = some (c, edge) →
        (e'.RejectsNext ↔ e'.labels.label edge ≠ .gold ∧
          ∀ failure, (e'.decisions.decide edge c.score.read.1).1 ≠ .error failure) ∧
        ∀ failure, (e'.decisions.decide edge c.score.read.1).1 = .error failure →
          e'.step .oracle = (.error (.decision failure), e'.asked c edge) := by
  have labelled := (Labelled.empty reachable.coherent unlabelled).workAll tasks keeps
  refine ⟨fun id edge live => ?_, fun c edge taken => labelled.coherent.rejectsNext_iff taken⟩
  obtain ⟨a, isAtom⟩ := labelled.coherent.graph.exists_atom live
  exact ⟨a, isAtom, labelled.label_eq live isAtom⟩

/-- One link is gold and belongs to the schema, another one from the same point is observed, and a
third is proposed. -/
def contested : List Task :=
  [.load [.schemaFact "link" [.int 1, .int 4], .fact "link" [.int 1, .int 2],
      .label "link" [.int 1, .int 4]],
    .operate (.makeEdgeFromValues ⟨0⟩ [.int 1, .int 3] .temporary),
    .operate (.addCandidate ⟨.temporary, 1⟩ (.constant 1.0))]

theorem keepsLabels_contested : ∀ task ∈ contested, task.KeepsLabels := by
  simp [contested, Task.KeepsLabels, Operation.KeepsLabels]

theorem labels_linkable : linkable.labels = .empty :=
  (Reachable.start .usual .byScore).coherent.grown_perform (.declare "link" ["point", "point"])
    trivial |>.labels

/-- The gold link is told by its content from the observed and the proposed one, and a step that
follows the gold facts rejects the latter. -/
theorem labels_contested : Reachable linkable ∧ linkable.labels = .empty ∧
    (∀ task ∈ contested, task.KeepsLabels) ∧
    let e' := linkable.workAll contested
    (∃ edge, e'.graph.edges.get? ⟨.schema, 0⟩ = some edge ∧ e'.labels.label edge = .gold) ∧
    (∃ edge, e'.graph.edges.get? ⟨.temporary, 0⟩ = some edge ∧ e'.labels.label edge = .notGold) ∧
    ∃ c edge, e'.taken? = some (c, edge) ∧ e'.labels.label edge = .notGold ∧ e'.RejectsNext := by
  have golds : linkable.goldAtoms contested = [⟨"link", [.int 1, .int 4]⟩] := by decide +kernel
  obtain ⟨labels, steps⟩ := labels_workAll reachable_linkable labels_linkable contested
    keepsLabels_contested
  rw [golds] at labels
  have told : ∀ id a, (linkable.workAll contested).graph.atom? id = some a →
      ∃ edge, (linkable.workAll contested).graph.edges.get? id = some edge ∧
        (linkable.workAll contested).labels.label edge =
          a.labelAmong [⟨"link", [.int 1, .int 4]⟩] := by
    intro id a isAtom
    obtain ⟨edge, live, _⟩ := Option.bind_eq_some_iff.mp isAtom
    obtain ⟨b, isAtom', label⟩ := labels id edge live
    obtain rfl := Option.some.inj (isAtom.symm.trans isAtom')
    exact ⟨edge, live, label⟩
  have gold := told ⟨.schema, 0⟩ ⟨"link", [.int 1, .int 4]⟩ (by decide +kernel)
  have observed := told ⟨.temporary, 0⟩ ⟨"link", [.int 1, .int 2]⟩ (by decide +kernel)
  obtain ⟨proposed, live, label⟩ :=
    told ⟨.temporary, 1⟩ ⟨"link", [.int 1, .int 3]⟩ (by decide +kernel)
  obtain ⟨c, edge, taken, isProposed⟩ : ∃ c edge,
      (linkable.workAll contested).taken? = some (c, edge) ∧ c.edge = ⟨.temporary, 1⟩ := by
    have first : ((linkable.workAll contested).taken?.map fun x => x.1.edge) =
        some ⟨.temporary, 1⟩ := by
      decide +kernel
    obtain ⟨⟨c, edge⟩, taken, same⟩ := Option.map_eq_some_iff.mp first
    exact ⟨c, edge, taken, same⟩
  obtain rfl : edge = proposed :=
    Option.some.inj ((live_of_taken taken).symm.trans (isProposed ▸ live))
  refine ⟨reachable_linkable, labels_linkable, keepsLabels_contested, gold, observed, c, edge,
    taken, label, (steps c edge taken).1.mpr ⟨by rw [label]; decide, fun failure failed => ?_⟩⟩
  have succeeds : ((linkable.workAll contested).step .oracle).1.isOk = true := by decide +kernel
  rw [(steps c edge taken).2 failure failed] at succeeds
  cases succeeds

/-- Two constraints over the links from a point, which the policies must satisfy alike. The first
accepts the first candidate that it sees, the second none after an observed link. -/
def wary : Engine :=
  linkable.setFallback (.unanimous [.group ⟨.exactlyOne, ⟨0⟩, [0], [], "EXACTLY_ONE:link:[0]"⟩,
    .group ⟨.atMostOne, ⟨0⟩, [0], [], "AT_MOST_ONE:link:[0]"⟩])

/-- A candidate that is not gold is not rejected if the policies disagree about it: the step
fails. -/
theorem not_rejectsNext_wary :
    ¬∀ e : Engine, Reachable e → e.labels = .empty →
      ∀ tasks, (∀ task ∈ tasks, Task.KeepsLabels task) →
        ∀ c edge, (e.workAll tasks).taken? = some (c, edge) →
          ((e.workAll tasks).RejectsNext ↔ (e.workAll tasks).labels.label edge ≠ .gold) := by
  intro law
  have failed : ((wary.workAll contested).step .oracle).1.isOk = false := by decide +kernel
  have notGold : ((wary.workAll contested).taken?.map fun x =>
      (wary.workAll contested).labels.label x.2) = some .notGold := by
    decide +kernel
  obtain ⟨⟨c, edge⟩, taken, label⟩ := Option.map_eq_some_iff.mp notGold
  have reachable : Reachable wary := reachable_linkable.next (.setFallback _)
  obtain ⟨s, e', stepped, _⟩ :=
    (law wary reachable labels_linkable contested keepsLabels_contested c edge taken).mpr
      (by rw [label]; decide)
  rw [stepped] at failed
  cases failed

end Engine

end ScoredChaining
