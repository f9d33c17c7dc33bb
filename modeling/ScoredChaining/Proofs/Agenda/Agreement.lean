import ScoredChaining.Proofs.Agenda.Valid
import ScoredChaining.Proofs.Factor
import ScoredChaining.Proofs.Graph.Facts

/-!
What an agenda keeps of its candidates, against the graph that they are facts of.

* `Priority.of_extends`: the priority of a live fact stays the same when the graph grows.
* `Agenda.Agrees`: the agenda is valid, and every entry is that of a live fact: it lists the nodes
  of the fact and has the priority that its score has now. The operations of the agenda keep this as
  long as the priorities that they are given are these.
* `Factor.agrees_rescore`: so do the factors.
-/

namespace ScoredChaining

/-! ### Priorities -/

namespace Priority

variable {g g' : Graph} {edge : Edge}

theorem argumentBytes_congr {n : NodeId} (same : g'.valueOf n = g.valueOf n) :
    argumentBytes g' n = argumentBytes g n := by
  unfold argumentBytes
  rw [same]

/-- A priority reads the values of the arguments and the name of the relation, and nothing else of
the graph. -/
theorem of_congr (p : Priority) (score : Score)
    (values : ∀ n ∈ edge.tail, g'.valueOf n = g.valueOf n)
    (name : g'.schema.relationName edge.relation = g.schema.relationName edge.relation) :
    p.of g' edge score = p.of g edge score := by
  have position : lastPosition g' edge = lastPosition g edge := by
    have integers : edge.tail.filterMap (fun n => (g'.valueOf n).toOption.bind Value.asInt) =
        edge.tail.filterMap fun n => (g.valueOf n).toOption.bind Value.asInt :=
      List.filterMap_congr fun n mem => by rw [values n mem]
    unfold lastPosition
    rw [integers]
  have bytes : factBytes g' edge = factBytes g edge := by
    have arguments : edge.tail.flatMap (argumentBytes g') = edge.tail.flatMap (argumentBytes g) :=
      List.flatMap_congr fun n mem => argumentBytes_congr (values n mem)
    unfold factBytes
    rw [arguments]
  have heuristics : ∀ h, p.heuristicValue g' edge score h = p.heuristicValue g edge score h := by
    intro h
    cases h <;> simp only [heuristicValue, position, bytes, name]
  simp only [of, heuristics]

/-- The priority of a live fact stays the same when the graph grows. -/
theorem of_extends (wf : g.WellFormed) (extends_ : g.Extends g') {id : EdgeId}
    (live : g.edges.get? id = some edge) (p : Priority) (score : Score) :
    p.of g' edge score = p.of g edge score := by
  obtain ⟨R, values, fits⟩ := wf.fits live
  apply p.of_congr score
  · intro n mem
    obtain ⟨i, at_⟩ := List.mem_iff_getElem?.mp mem
    obtain ⟨type, value, _, _, liveN⟩ := fits.holds.get at_
    rw [Graph.valueOf_eq_ok_iff.mpr ⟨type, liveN⟩,
      Graph.valueOf_eq_ok_iff.mpr ⟨type, extends_.nodes _ _ liveN⟩]
  · simp only [Schema.relationName, fits.relation, extends_.schema.relation fits.relation]

end Priority

/-! ### Entries -/

/-- The entry is that of a live fact: it lists the nodes of the fact. -/
def Entry.Fits (x : Entry) (g : Graph) (edge : Edge) : Prop :=
  g.edges.get? x.edge = some edge ∧ x.nodes = distinct (edge.head :: edge.tail)

/-- The entry is that of a live fact, and its priority is the one that its score has now. -/
def Entry.Agrees (x : Entry) (g : Graph) (p : Priority) : Prop :=
  ∃ edge, x.Fits g edge ∧ x.priority = p.of g edge x.score

namespace Agenda

/-- The agenda is valid, and every entry is that of a live fact with the priority that its score has
now. -/
structure Agrees (a : Agenda) (g : Graph) (p : Priority) : Prop where
  valid : a.Valid
  entries : ∀ x ∈ a.toList, x.Agrees g p

namespace Agrees

variable {a : Agenda} {g g' : Graph} {p : Priority} {id : EdgeId} {edge : Edge}

theorem empty (g : Graph) (p : Priority) : Agrees Agenda.empty g p := by
  constructor
  · exact .empty
  · intro x mem
    cases mem

/-- Candidates keep their nodes and priorities when the graph grows. -/
theorem mono (agrees : a.Agrees g p) (wf : g.WellFormed) (extends_ : g.Extends g') :
    a.Agrees g' p := by
  constructor
  · exact agrees.valid
  · intro x mem
    obtain ⟨edge, ⟨live, nodes⟩, priced⟩ := agrees.entries x mem
    refine ⟨edge, ⟨extends_.edges _ _ live, nodes⟩, ?_⟩
    rw [priced, p.of_extends wf extends_ live]

theorem add (agrees : a.Agrees g p) (live : g.edges.get? id = some edge) (score : Score) :
    (a.add id edge score (p.of g edge score)).2.Agrees g p := by
  constructor
  · exact agrees.valid.add id edge score _
  · intro x mem
    rcases (agrees.valid.linked.entries_add id edge score _).2 x mem with old | rfl
    · exact agrees.entries x old
    · exact ⟨edge, ⟨live, rfl⟩, rfl⟩

theorem pop (agrees : a.Agrees g p) : a.pop.2.Agrees g p := by
  constructor
  · exact agrees.valid.pop
  · intro x mem
    exact agrees.entries x (agrees.valid.linked.entries_pop.2 x mem)

theorem remove (agrees : a.Agrees g p) (id : EdgeId) : (a.remove id).2.Agrees g p := by
  constructor
  · exact agrees.valid.remove id
  · intro x mem
    exact agrees.entries x ((agrees.valid.linked.entries_remove id).2 x mem)

/-- An update may change scores, if it prices them. -/
theorem updateScore (agrees : a.Agrees g p) (live : g.edges.get? id = some edge)
    (update : Score → Score × Double)
    (prices : ∀ score, (update score).2 = p.of g edge (update score).1) :
    (a.updateScore id update).2.Agrees g p := by
  constructor
  · exact agrees.valid.updateScore id update
  · intro x mem
    obtain ⟨y, old, rfl⟩ := (agrees.valid.linked.entries_updateScore id update).2 x mem
    by_cases same : y.edge = id
    · subst same
      obtain ⟨edge', ⟨live', nodes⟩, _⟩ := agrees.entries y old
      obtain rfl : edge = edge' := Option.some.inj (live.symm.trans live')
      rw [updated, if_pos rfl]
      exact ⟨edge, ⟨live, nodes⟩, prices y.score⟩
    · rw [updated, if_neg same]
      exact agrees.entries y old

end Agrees

end Agenda

/-! ### Factors -/

namespace Factor

variable {a : Agenda} {g : Graph} {p : Priority}

/-- A factor leaves no candidate with the priority of another score. -/
theorem agrees_rescore (agrees : a.Agrees g p) (f : Factor) (bindings : List Binding) :
    (f.rescore bindings g p a).2.Agrees g p := by
  unfold rescore
  split
  · exact agrees
  · split
    · split
      · exact removeRivals_keeps (P := (·.Agrees g p)) (fun _ id agrees => agrees.remove id)
          _ _ g _ agrees
      · exact agrees
    · exact penalize_keeps (P := (·.Agrees g p)) (fun _ _ _ live agrees =>
        agrees.updateScore (Graph.edge_eq_ok_iff.mp live) _ fun _ => rfl) _ agrees

end Factor

end ScoredChaining
