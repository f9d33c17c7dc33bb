import ScoredChaining.Graph.Facts
import ScoredChaining.Proofs.Graph.Edges
import ScoredChaining.Proofs.Graph.Names
import ScoredChaining.Proofs.Graph.Nodes

/-!
Well-formed graphs: every fact has live arguments of the declared types, and a witness that is
labelled with the tuple of their values.

* `Graph.WellFormed.eq_of_head`: a fact is told by its witness.
* `Graph.internNode_spec`, `Graph.makeEdge_spec`, `Graph.makeEdgeFromValues_spec`: what is added to
  a well-formed graph leaves it well-formed and keeps everything in it (`Graph.Grows`), also when
  the operation fails.
* `Graph.makeEdge_temporary`: a temporary fact over live nodes of the declared types can always be
  had.
-/

namespace ScoredChaining

/-- The nodes are live and have these types and values, in order. -/
inductive NodeStore.Holds (s : NodeStore) : List TypeId → List NodeId → List Value → Prop where
  | nil : Holds s [] [] []
  | cons {type : TypeId} {n : NodeId} {value : Value} {types : List TypeId} {tail : List NodeId}
      {values : List Value} : s.get? n = some ⟨type, value⟩ → Holds s types tail values →
      Holds s (type :: types) (n :: tail) (value :: values)

namespace NodeStore.Holds

variable {s s' : NodeStore} {types : List TypeId} {tail : List NodeId} {values : List Value}

theorem mono (extends_ : s.Extends s') (holds : s.Holds types tail values) :
    s'.Holds types tail values := by
  induction holds with
  | nil => exact .nil
  | cons live _ ih => exact .cons (extends_ _ _ live) ih

theorem length_tail (holds : s.Holds types tail values) : tail.length = types.length := by
  induction holds with
  | nil => rfl
  | cons _ _ ih => simp [ih]

theorem length_values (holds : s.Holds types tail values) : values.length = types.length := by
  induction holds with
  | nil => rfl
  | cons _ _ ih => simp [ih]

/-- The argument at a position is live and has the type and value at the position. -/
theorem get (holds : s.Holds types tail values) {i : Nat} {n : NodeId} (at_ : tail[i]? = some n) :
    ∃ type value, types[i]? = some type ∧ values[i]? = some value ∧
      s.get? n = some ⟨type, value⟩ := by
  induction holds generalizing i with
  | nil => simp at at_
  | @cons type m value _ _ _ live _ ih =>
    cases i with
    | zero =>
      obtain rfl : m = n := by simpa using at_
      exact ⟨type, value, by simp [live]⟩
    | succ i => simpa using ih (by simpa using at_)

theorem values_unique {values' : List Value} (holds : s.Holds types tail values)
    (holds' : s.Holds types tail values') : values = values' := by
  induction holds generalizing values' with
  | nil => cases holds'; rfl
  | cons live _ ih =>
    cases holds' with
    | cons live' holds' =>
      have same := live.symm.trans live'
      simp only [Option.some.injEq, Node.mk.injEq, true_and] at same
      rw [same, ih holds']

/-- The types and values tell the nodes. -/
theorem tail_unique (canonical : s.Canonical) {tail' : List NodeId}
    (holds : s.Holds types tail values) (holds' : s.Holds types tail' values) : tail = tail' := by
  induction holds generalizing tail' with
  | nil => cases holds'; rfl
  | cons live _ ih =>
    cases holds' with
    | cons live' holds' => rw [canonical.unique live live', ih holds']

end NodeStore.Holds

namespace Graph

variable {g g' g'' : Graph}

/-! ### Growth and well-formedness -/

/-- Everything in the first graph is in the second, with the same content. -/
structure Extends (g g' : Graph) : Prop where
  schema : g.schema.Extends g'.schema
  nodes : g.nodes.Extends g'.nodes
  edges : g.edges.Extends g'.edges

theorem Extends.refl (g : Graph) : Extends g g :=
  ⟨.refl _, .refl _, .refl _⟩

theorem Extends.trans (first : Extends g g') (second : Extends g' g'') : Extends g g'' :=
  ⟨first.schema.trans second.schema, first.nodes.trans second.nodes,
    first.edges.trans second.edges⟩

/-- A fact has as many live arguments as its relation, of the declared types and with the values,
and its witness stands for the tuple of the values. -/
structure Fits (g : Graph) (e : Edge) (R : Relation) (values : List Value) : Prop where
  relation : g.schema.relation? e.relation = some R
  holds : g.nodes.Holds R.argTypes e.tail values
  head : g.nodes.get? e.head = some ⟨R.witnessType, .tuple values⟩

theorem Fits.mono {e : Edge} {R : Relation} {values : List Value} (extends_ : Extends g g')
    (fits : g.Fits e R values) : g'.Fits e R values :=
  ⟨extends_.schema.relation fits.relation, fits.holds.mono extends_.nodes,
    extends_.nodes _ _ fits.head⟩

/-- A fact of the schema has a witness and arguments of the schema. -/
def Lasting (e : Edge) : Prop :=
  e.head.isSchema = true ∧ ∀ n ∈ e.tail, n.isSchema = true

/-- Names, nodes and facts are each told by what they stand for, and every fact fits its
relation. -/
structure WellFormed (g : Graph) : Prop where
  schema : g.schema.WellFormed
  nodes : g.nodes.Canonical
  edges : g.edges.Canonical
  fits : ∀ {id e}, g.edges.get? id = some e → ∃ R values, g.Fits e R values
  lasting : ∀ {id e}, g.edges.get? id = some e → id.isSchema = true → Lasting e

/-- The second graph is well-formed, has everything that is in the first, and the same schema. -/
structure Grows (g g' : Graph) : Prop where
  wellFormed : g'.WellFormed
  extends_ : g.Extends g'
  schema : g'.schema = g.schema

theorem Grows.refl (wf : g.WellFormed) : Grows g g :=
  ⟨wf, .refl g, rfl⟩

theorem Grows.trans (first : Grows g g') (second : Grows g' g'') : Grows g g'' :=
  ⟨second.wellFormed, first.extends_.trans second.extends_, second.schema.trans first.schema⟩

/-- The value of a live node. -/
theorem valueOf_eq_ok_iff {n : NodeId} {v : Value} :
    g.valueOf n = .ok v ↔ ∃ t, g.nodes.get? n = some ⟨t, v⟩ := by
  unfold valueOf node
  cases found : g.nodes.get? n with
  | none => simp [Except.map]
  | some node =>
    obtain ⟨t, w⟩ := node
    simp [Except.map]

theorem edge_eq_ok_iff {id : EdgeId} {e : Edge} : g.edge id = .ok e ↔ g.edges.get? id = some e := by
  unfold edge
  cases g.edges.get? id <;> simp

theorem relation_eq_ok_iff {r : RelationId} {R : Relation} :
    g.relation r = .ok R ↔ g.schema.relation? r = some R := by
  unfold relation
  cases g.schema.relation? r <;> simp

namespace WellFormed

theorem empty : WellFormed Graph.empty := by
  have none : ∀ id, Graph.empty.edges.get? id = none := by
    rintro ⟨p, i⟩
    cases p <;> simp [EdgeStore.get?, EdgeStore.arena, Graph.empty, EdgeStore.empty]
  refine ⟨.empty, .empty, .empty, fun {id e} live => ?_, fun {id e} live => ?_⟩
  · simp [none id] at live
  · simp [none id] at live

/-- The witness tells the fact: its type tells the relation, and its value the arguments. -/
theorem eq_of_head (wf : g.WellFormed) {d e : EdgeId} {x y : Edge}
    (liveX : g.edges.get? d = some x) (liveY : g.edges.get? e = some y) (same : x.head = y.head) :
    d = e := by
  obtain ⟨R, values, fitsX⟩ := wf.fits liveX
  obtain ⟨R', values', fitsY⟩ := wf.fits liveY
  have heads := fitsX.head.symm.trans (same ▸ fitsY.head)
  simp only [Option.some.injEq, Node.mk.injEq, Value.tuple.injEq] at heads
  obtain ⟨sameType, rfl⟩ := heads
  have sameRelation := wf.schema.eq_of_witnessType fitsX.relation fitsY.relation sameType
  obtain rfl : R = R' := by
    have := fitsX.relation.symm.trans (sameRelation ▸ fitsY.relation)
    simpa using this
  exact wf.edges.unique liveX liveY sameRelation (fitsX.holds.tail_unique wf.nodes fitsY.holds)

/-- Nodes and names may be added while the edges stay. -/
theorem of_edges_eq (wf : g.WellFormed) (schema : g'.schema.WellFormed)
    (nodes : g'.nodes.Canonical) (extends_ : g.Extends g') (edges : g'.edges = g.edges) :
    g'.WellFormed := by
  refine ⟨schema, nodes, edges ▸ wf.edges, fun {id e} live => ?_, fun {id e} live => ?_⟩
  · obtain ⟨R, values, fits⟩ := wf.fits (edges ▸ live)
    exact ⟨R, values, fits.mono extends_⟩
  · exact wf.lasting (edges ▸ live)

/-- The schema may grow. -/
theorem withSchema (wf : g.WellFormed) {s : Schema} (schema : s.WellFormed)
    (extends_ : g.schema.Extends s) :
    WellFormed { g with schema := s } ∧ g.Extends { g with schema := s } :=
  have grown : g.Extends { g with schema := s } := ⟨extends_, .refl _, .refl _⟩
  ⟨wf.of_edges_eq schema wf.nodes grown rfl, grown⟩

end WellFormed

/-! ### Nodes -/

/-- Interning a node lets the graph grow, leaves the edges alone, and answers with a node of the
type and value. -/
theorem internNode_spec (wf : g.WellFormed) (type : TypeId) (value : Value)
    (partition : Partition) :
    Grows g (g.internNode type value partition).2 ∧
      (g.internNode type value partition).2.edges = g.edges ∧
      ∀ n, (g.internNode type value partition).1 = .ok n →
        (g.internNode type value partition).2.nodes.get? n = some ⟨type, value⟩ ∧
          (partition = .schema → n.isSchema = true) := by
  have spec := NodeStore.lookupIn_spec wf.nodes type value true partition
  unfold internNode
  generalize g.nodes.lookupIn type value true partition = looked at spec ⊢
  obtain ⟨answer, nodes⟩ := looked
  have extends_ : g.Extends { g with nodes } := ⟨.refl _, spec.extends_, .refl _⟩
  have grows : Grows g { g with nodes } :=
    ⟨wf.of_edges_eq wf.schema spec.canonical extends_ rfl, extends_, rfl⟩
  match answer with
  | .error _ => exact ⟨grows, rfl, by simp⟩
  | .ok none => exact ⟨grows, rfl, by simp⟩
  | .ok (some id) =>
    refine ⟨grows, rfl, ?_⟩
    intro n same
    obtain rfl := Except.ok.inj same
    exact ⟨spec.found rfl, spec.lasting rfl⟩

theorem internNode_temporary (g : Graph) (type : TypeId) (value : Value) :
    ∃ n, (g.internNode type value .temporary).1 = .ok n := by
  obtain ⟨id, found⟩ := NodeStore.lookupIn_temporary g.nodes type value
  refine ⟨id, ?_⟩
  unfold internNode
  generalize g.nodes.lookupIn type value true .temporary = looked at found ⊢
  obtain ⟨answer, nodes⟩ := looked
  obtain rfl : answer = .ok (some id) := found
  rfl

theorem lookupNode_grows (wf : g.WellFormed) (type : TypeId) (value : Value) (create : Bool)
    (partition : Partition) : Grows g (g.lookupNode type value create partition).2 := by
  have spec := NodeStore.lookupIn_spec wf.nodes type value create partition
  have extends_ : g.Extends (g.lookupNode type value create partition).2 :=
    ⟨.refl _, spec.extends_, .refl _⟩
  exact ⟨wf.of_edges_eq wf.schema spec.canonical extends_ rfl, extends_, rfl⟩

/-- Interning nodes lets the graph grow, and answers with nodes of the types and values. -/
theorem internNodes_spec (wf : g.WellFormed) (partition : Partition) {types : List TypeId}
    {values : List Value} (length : values.length = types.length) :
    Grows g (g.internNodes partition types values).2 ∧
      ∀ tail, (g.internNodes partition types values).1 = .ok tail →
        (g.internNodes partition types values).2.nodes.Holds types tail values ∧
          (partition = .schema → ∀ n ∈ tail, n.isSchema = true) := by
  induction types generalizing g values with
  | nil =>
    obtain rfl := List.eq_nil_of_length_eq_zero length
    refine ⟨.refl wf, ?_⟩
    intro tail same
    obtain rfl := Except.ok.inj same
    exact ⟨.nil, by simp⟩
  | cons type types ih =>
    cases values with
    | nil => simp at length
    | cons value values =>
      obtain ⟨grows, _, found⟩ := internNode_spec wf type value partition
      simp only [internNodes]
      generalize g.internNode type value partition = interned at grows found ⊢
      obtain ⟨answer, g₁⟩ := interned
      cases answer with
      | error e => exact ⟨grows, by simp⟩
      | ok n =>
        obtain ⟨live, lasting⟩ := found n rfl
        obtain ⟨growsRest, foundRest⟩ := ih grows.wellFormed (by simpa using length)
        simp only
        generalize g₁.internNodes partition types values = rest at growsRest foundRest ⊢
        obtain ⟨answer, g₂⟩ := rest
        cases answer with
        | error e => exact ⟨grows.trans growsRest, by simp⟩
        | ok ns =>
          refine ⟨grows.trans growsRest, ?_⟩
          intro tail same
          obtain rfl := Except.ok.inj same
          obtain ⟨holds, lastingRest⟩ := foundRest ns rfl
          refine ⟨.cons (growsRest.extends_.nodes _ _ live) holds, ?_⟩
          intro schema m mem
          rcases List.mem_cons.mp mem with rfl | later
          · exact lasting schema
          · exact lastingRest schema m later

/-- Temporary nodes can always be had. -/
theorem internNodes_temporary (g : Graph) (types : List TypeId) (values : List Value) :
    ∃ tail, (g.internNodes .temporary types values).1 = .ok tail := by
  induction types generalizing g values with
  | nil => exact ⟨[], rfl⟩
  | cons type types ih =>
    cases values with
    | nil => exact ⟨[], rfl⟩
    | cons value values =>
      obtain ⟨n, found⟩ := internNode_temporary g type value
      rw [internNodes]
      generalize g.internNode type value .temporary = interned at found ⊢
      obtain ⟨answer, g₁⟩ := interned
      obtain rfl : answer = .ok n := found
      obtain ⟨tail, foundRest⟩ := ih g₁ values
      simp only
      generalize g₁.internNodes .temporary types values = rest at foundRest ⊢
      obtain ⟨answer, g₂⟩ := rest
      obtain rfl : answer = .ok tail := foundRest
      exact ⟨n :: tail, rfl⟩

/-! ### Facts -/

theorem argumentValues_cons_eq_ok_iff {R : Relation} {partition : Partition} {i : Nat}
    {type : TypeId} {types : List TypeId} {n : NodeId} {tail : List NodeId} {values : List Value} :
    g.argumentValues R partition i (type :: types) (n :: tail) = .ok values ↔
      ∃ v others, g.nodes.get? n = some ⟨type, v⟩ ∧ (partition = .schema → n.isSchema = true) ∧
        g.argumentValues R partition (i + 1) types tail = .ok others ∧ values = v :: others := by
  simp only [argumentValues, node, bind, Except.bind, pure, Except.pure, throw, throwThe,
    MonadExceptOf.throw]
  cases live : g.nodes.get? n with
  | none => simp
  | some x =>
    obtain ⟨t, v⟩ := x
    by_cases typed : t = type
    · cases rest : g.argumentValues R partition (i + 1) types tail <;>
        cases partition <;> cases n.isSchema <;> simp [typed, eq_comm]
    · simp [typed]

/-- The arguments are accepted just if they are live nodes of the declared types, and schema nodes
for a schema fact. -/
theorem argumentValues_eq_ok_iff {R : Relation} {partition : Partition} {i : Nat}
    {types : List TypeId} {tail : List NodeId} {values : List Value}
    (length : tail.length = types.length) :
    g.argumentValues R partition i types tail = .ok values ↔
      g.nodes.Holds types tail values ∧
        (partition = .schema → ∀ n ∈ tail, n.isSchema = true) := by
  induction types generalizing tail values i with
  | nil =>
    obtain rfl := List.eq_nil_of_length_eq_zero length
    simp only [argumentValues, Except.ok.injEq]
    constructor
    · rintro rfl
      exact ⟨.nil, by simp⟩
    · rintro ⟨holds, _⟩
      cases holds
      rfl
  | cons type types ih =>
    cases tail with
    | nil => simp at length
    | cons n tail =>
      rw [argumentValues_cons_eq_ok_iff]
      constructor
      · rintro ⟨v, others, live, lasting, accepted, rfl⟩
        obtain ⟨holds, lastingRest⟩ := (ih (by simpa using length)).mp accepted
        refine ⟨.cons live holds, ?_⟩
        intro schema m mem
        rcases List.mem_cons.mp mem with rfl | later
        · exact lasting schema
        · exact lastingRest schema m later
      · rintro ⟨holds, lasting⟩
        cases holds with
        | cons live holds =>
          have accepted := (ih (i := i + 1) (by simpa using length)).mpr ⟨holds, fun schema m mem =>
            lasting schema m (List.mem_cons_of_mem _ mem)⟩
          exact ⟨_, _, live, fun schema => lasting schema n List.mem_cons_self, accepted, rfl⟩

/-- A new fact over checked arguments, with its witness. -/
theorem addEdge_spec (wf : g.WellFormed) {r : RelationId} {R : Relation} {tail : List NodeId}
    {values : List Value} {partition : Partition} (isR : g.schema.relation? r = some R)
    (holds : g.nodes.Holds R.argTypes tail values)
    (lasting : partition = .schema → ∀ n ∈ tail, n.isSchema = true)
    (absent : g.edges.find? r tail = none) :
    Grows g (g.addEdge r R.witnessType tail values partition).2 ∧
      ∀ id, (g.addEdge r R.witnessType tail values partition).1 = .ok id →
        ∃ head, (g.addEdge r R.witnessType tail values partition).2.edges.get? id =
          some ⟨r, head, tail⟩ := by
  obtain ⟨grows, sameEdges, found⟩ := internNode_spec wf R.witnessType (.tuple values) partition
  unfold addEdge
  generalize g.internNode R.witnessType (.tuple values) partition = interned
    at grows sameEdges found ⊢
  obtain ⟨answer, g₁⟩ := interned
  cases answer with
  | error e => exact ⟨grows, by simp⟩
  | ok head =>
    obtain ⟨live, lastingHead⟩ := found head rfl
    let e : Edge := ⟨r, head, tail⟩
    have absent₁ : g₁.edges.find? e.relation e.tail = none := by
      rw [show g₁.edges = g.edges from sameEdges]
      exact absent
    let g₂ : Graph := { g₁ with edges := (g₁.edges.intern e partition).2 }
    have extends_ : g₁.Extends g₂ :=
      ⟨.refl _, .refl _, fun id x old => (EdgeStore.get?_intern absent₁).mpr (.inl old)⟩
    have fits : g₁.Fits e R values :=
      ⟨grows.extends_.schema.relation isR, holds.mono grows.extends_.nodes, live⟩
    have wf₂ : g₂.WellFormed := by
      refine ⟨grows.wellFormed.schema, grows.wellFormed.nodes, grows.wellFormed.edges.intern absent₁,
        fun {id x} live => ?_, fun {id x} live schema => ?_⟩
      · rcases (EdgeStore.get?_intern absent₁).mp live with old | ⟨_, rfl⟩
        · obtain ⟨R', values', fits'⟩ := grows.wellFormed.fits old
          exact ⟨R', values', fits'.mono extends_⟩
        · exact ⟨R, values, fits.mono extends_⟩
      · rcases (EdgeStore.get?_intern absent₁).mp live with old | ⟨rfl, rfl⟩
        · exact grows.wellFormed.lasting old schema
        · have isSchema : partition = .schema := by
            simpa [EdgeId.isSchema, EdgeStore.partition_intern absent₁] using schema
          exact ⟨lastingHead isSchema, lasting isSchema⟩
    refine ⟨grows.trans ⟨wf₂, extends_, rfl⟩, fun id same => ⟨head, ?_⟩⟩
    obtain rfl := Except.ok.inj same
    exact (EdgeStore.get?_intern absent₁).mpr (.inr ⟨rfl, rfl⟩)

/-- Making a fact lets the graph grow, and answers with a fact of the relation and arguments. -/
theorem makeEdge_spec (wf : g.WellFormed) (r : RelationId) (tail : List NodeId)
    (partition : Partition) :
    Grows g (g.makeEdge r tail partition).2 ∧
      ∀ id, (g.makeEdge r tail partition).1 = .ok id →
        ∃ head, (g.makeEdge r tail partition).2.edges.get? id = some ⟨r, head, tail⟩ := by
  unfold makeEdge
  cases isR : g.relation r with
  | error e => exact ⟨.refl wf, by simp⟩
  | ok R =>
    simp only
    split
    · exact ⟨.refl wf, by simp⟩
    · rename_i length
      cases accepted : g.argumentValues R partition 0 R.argTypes tail with
      | error e => exact ⟨.refl wf, by simp⟩
      | ok values =>
        obtain ⟨holds, lasting⟩ := (argumentValues_eq_ok_iff (Decidable.not_not.mp length)).mp accepted
        simp only
        cases known : g.edges.find? r tail with
        | some id =>
          simp only
          split
          · exact ⟨.refl wf, by simp⟩
          · refine ⟨.refl wf, ?_⟩
            intro other same
            obtain rfl := Except.ok.inj same
            obtain ⟨⟨_, head, _⟩, live, rfl, rfl⟩ := wf.edges.find?_eq_some_iff.mp known
            exact ⟨head, live⟩
        | none =>
          exact addEdge_spec wf (relation_eq_ok_iff.mp isR) holds lasting known

/-- A temporary fact over live nodes of the declared types can always be had. -/
theorem makeEdge_temporary {r : RelationId} {R : Relation} {tail : List NodeId}
    {values : List Value} (isR : g.schema.relation? r = some R)
    (holds : g.nodes.Holds R.argTypes tail values) :
    ∃ id, (g.makeEdge r tail .temporary).1 = .ok id := by
  have length := holds.length_tail
  have accepted : g.argumentValues R .temporary 0 R.argTypes tail = .ok values :=
    (argumentValues_eq_ok_iff length).mpr ⟨holds, by simp⟩
  have arity : ¬tail.length ≠ R.arity := Decidable.not_not.mpr length
  simp only [makeEdge, relation_eq_ok_iff.mpr isR, if_neg arity, accepted]
  cases g.edges.find? r tail with
  | some id => exact ⟨id, by simp⟩
  | none =>
    obtain ⟨head, found⟩ := internNode_temporary g R.witnessType (.tuple values)
    simp only [addEdge]
    generalize g.internNode R.witnessType (.tuple values) .temporary = interned at found ⊢
    obtain ⟨answer, g₁⟩ := interned
    obtain rfl : answer = .ok head := found
    exact ⟨_, rfl⟩

/-- Making a fact from values lets the graph grow, and answers with a fact of the relation whose
arguments have the values. -/
theorem makeEdgeFromValues_spec (wf : g.WellFormed) (r : RelationId) (values : List Value)
    (partition : Partition) :
    Grows g (g.makeEdgeFromValues r values partition).2 ∧
      ∀ id, (g.makeEdgeFromValues r values partition).1 = .ok id →
        ∃ e R, (g.makeEdgeFromValues r values partition).2.edges.get? id = some e ∧
          e.relation = r ∧ (g.makeEdgeFromValues r values partition).2.Fits e R values := by
  unfold makeEdgeFromValues
  cases isR : g.relation r with
  | error e => exact ⟨.refl wf, by simp⟩
  | ok R =>
    simp only
    split
    · exact ⟨.refl wf, by simp⟩
    · rename_i length
      obtain ⟨grows, found⟩ := internNodes_spec wf partition (Decidable.not_not.mp length)
      generalize g.internNodes partition R.argTypes values = interned at grows found ⊢
      obtain ⟨answer, g₁⟩ := interned
      cases answer with
      | error e => exact ⟨grows, by simp⟩
      | ok tail =>
        obtain ⟨holds, _⟩ := found tail rfl
        obtain ⟨growsEdge, made⟩ := makeEdge_spec grows.wellFormed r tail partition
        refine ⟨grows.trans growsEdge, ?_⟩
        intro id same
        obtain ⟨head, live⟩ := made id same
        obtain ⟨R', values', fits⟩ := growsEdge.wellFormed.fits live
        have isR' := (grows.trans growsEdge).extends_.schema.relation (relation_eq_ok_iff.mp isR)
        obtain rfl : R' = R := Option.some.inj (fits.relation.symm.trans isR')
        obtain rfl := (holds.mono growsEdge.extends_.nodes).values_unique fits.holds
        exact ⟨_, R', live, rfl, fits⟩

/-- A temporary fact with as many values as its relation has arguments can always be had. -/
theorem makeEdgeFromValues_temporary (wf : g.WellFormed) {r : RelationId} {R : Relation}
    {values : List Value} (isR : g.schema.relation? r = some R) (arity : values.length = R.arity) :
    ∃ id, (g.makeEdgeFromValues r values .temporary).1 = .ok id := by
  obtain ⟨tail, made⟩ := internNodes_temporary g R.argTypes values
  obtain ⟨grows, found⟩ := internNodes_spec wf .temporary arity
  simp only [makeEdgeFromValues, relation_eq_ok_iff.mpr isR, arity, ne_eq, not_true_eq_false,
    if_false]
  generalize g.internNodes .temporary R.argTypes values = interned at made grows found ⊢
  obtain ⟨answer, g₁⟩ := interned
  obtain rfl : answer = .ok tail := made
  exact makeEdge_temporary (grows.extends_.schema.relation isR) (found tail rfl).1

/-! ### Forgetting -/

theorem WellFormed.clearTemporary (wf : g.WellFormed) : g.clearTemporary.WellFormed := by
  obtain ⟨canonical, content⟩ := wf.nodes.clearTemporary
  refine ⟨wf.schema, canonical, wf.edges.clearTemporary, fun {id e} live => ?_,
    fun {id e} live => wf.lasting (EdgeStore.get?_clearTemporary.mp live).1⟩
  obtain ⟨old, isSchema⟩ := EdgeStore.get?_clearTemporary.mp live
  obtain ⟨R, values, fits⟩ := wf.fits old
  obtain ⟨lastingHead, lastingTail⟩ := wf.lasting old isSchema
  refine ⟨R, values, fits.relation, ?_, content.mpr ⟨fits.head, lastingHead⟩⟩
  have keep : ∀ {types tail values}, g.nodes.Holds types tail values →
      (∀ n ∈ tail, n.isSchema = true) → g.clearTemporary.nodes.Holds types tail values := by
    intro types tail values holds lasting
    induction holds with
    | nil => exact .nil
    | @cons type n _ _ _ _ live _ ih =>
      exact .cons (content.mpr ⟨live, lasting n List.mem_cons_self⟩)
        (ih fun m mem => lasting m (List.mem_cons_of_mem _ mem))
  exact keep fits.holds lastingTail

end Graph

end ScoredChaining
