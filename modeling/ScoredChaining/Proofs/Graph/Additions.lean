import ScoredChaining.Proofs.Graph.Histories
import ScoredChaining.Proofs.Graph.Interning

/-!
What making a fact adds to a graph.

* `Graph.Interned`, `Graph.Made`: the ways in which interning a node and making a fact can end.
  `Graph.makeEdge_made`: making a fact either leaves the graph exactly as it was or adds one edge
  and at most the witness.
* `Graph.Admits`: the condition under which a fact can be had. A call is refused just without it.
* `Graph.makeEdgeFromValues_error`: a refused call with values leaves at most argument nodes.
* `Graph.Atomic`, `Graph.performAll_atomic`: this holds of every graph that calls can build.
-/

namespace ScoredChaining

namespace EdgeStore

variable {s : EdgeStore} {e : Edge} {partition : Partition}

/-- The second store has one edge more than the first, under a number that was not in use. -/
structure Gains (s s' : EdgeStore) (id : EdgeId) (e : Edge) : Prop where
  fresh : s.get? id = none
  content : ∀ d, s'.get? d = if d = id then some e else s.get? d

theorem gains_intern (absent : s.find? e.relation e.tail = none) :
    s.Gains (s.intern e partition).2 (s.intern e partition).1 e := by
  have fresh : s.get? (s.intern e partition).1 = none := by
    simp [intern, absent, get?]
  refine ⟨fresh, fun d => Option.ext fun x => (get?_intern absent).trans ?_⟩
  by_cases same : d = (s.intern e partition).1
  · rw [if_pos same, same]
    simp [fresh, eq_comm]
  · simp [same]

end EdgeStore

namespace Graph

variable {g g' : Graph} {r : RelationId} {tail : List NodeId} {partition : Partition}

/-! ### Nodes -/

/-- The ways in which interning a node can end. -/
inductive Interned (g : Graph) (type : TypeId) (value : Value) (partition : Partition) :
    Except StoreError NodeId → Graph → Prop where
  | known {n : NodeId} (live : g.nodes.get? n = some ⟨type, value⟩)
      (lasting : partition = .schema → n.isSchema = true) :
      Interned g type value partition (.ok n) g
  /-- A schema node is asked for, and the node there is will not last. -/
  | refused {n : NodeId} {e : StoreError} (live : g.nodes.get? n = some ⟨type, value⟩)
      (passing : n.isSchema = false) (asked : partition = .schema) :
      Interned g type value partition (.error e) g
  | created {n : NodeId} {nodes : NodeStore}
      (absent : ∀ m, g.nodes.get? m ≠ some ⟨type, value⟩) (placed : n.partition = partition)
      (gains : g.nodes.Gains nodes n ⟨type, value⟩) :
      Interned g type value partition (.ok n) { g with nodes }

theorem internNode_interned (canonical : g.nodes.Canonical) (type : TypeId) (value : Value)
    (partition : Partition) :
    Interned g type value partition (g.internNode type value partition).1
      (g.internNode type value partition).2 := by
  have outcome := NodeStore.lookupIn_outcome canonical type value true partition
  unfold internNode
  generalize g.nodes.lookupIn type value true partition = looked at outcome ⊢
  obtain ⟨answer, nodes⟩ := looked
  cases outcome with
  | known live lasting => exact .known live lasting
  | conflict live passing asked => exact .refused live passing asked
  | missing _ create_eq => cases create_eq
  | created absent _ placed gains => exact .created absent placed gains

/-- Interning leaves the names and the edges alone, and all new nodes have the type and value. -/
theorem Interned.spec {type : TypeId} {value : Value} {answer : Except StoreError NodeId}
    (interned : Interned g type value partition answer g') :
    g'.schema = g.schema ∧ g'.edges = g.edges ∧ g.nodes.Extends g'.nodes ∧
      ∀ n x, g'.nodes.get? n = some x →
        g.nodes.get? n = some x ∨ n.partition = partition ∧ x = ⟨type, value⟩ := by
  cases interned with
  | known _ _ => exact ⟨rfl, rfl, .refl _, fun _ _ live => .inl live⟩
  | refused _ _ _ => exact ⟨rfl, rfl, .refl _, fun _ _ live => .inl live⟩
  | created _ placed gains =>
    refine ⟨rfl, rfl, fun n x live => gains.get?_eq_some_iff.mpr (.inl live), fun n x live => ?_⟩
    rcases gains.get?_eq_some_iff.mp live with old | ⟨rfl, rfl⟩
    · exact .inl old
    · exact .inr ⟨placed, rfl⟩

/-- The second graph has the names and edges of the first, and all that it has besides the nodes of
the first are nodes of the partition with these types and values. -/
structure LeavesNodes (g : Graph) (partition : Partition) (types : List TypeId)
    (values : List Value) (g' : Graph) : Prop where
  schema : g'.schema = g.schema
  edges : g'.edges = g.edges
  kept : g.nodes.Extends g'.nodes
  added : ∀ n x, g'.nodes.get? n = some x → g.nodes.get? n = some x ∨
    n.partition = partition ∧ ∃ i : Nat, types[i]? = some x.type ∧ values[i]? = some x.value

theorem LeavesNodes.refl (g : Graph) (partition : Partition) (types : List TypeId)
    (values : List Value) : LeavesNodes g partition types values g :=
  ⟨rfl, rfl, .refl _, fun _ _ live => .inl live⟩

/-- One more node of the type and value in front of the others. -/
theorem Interned.leavesNodes {type : TypeId} {value : Value} {types : List TypeId}
    {values : List Value} {answer : Except StoreError NodeId} {g₁ : Graph}
    (interned : Interned g type value partition answer g₁)
    (rest : LeavesNodes g₁ partition types values g') :
    LeavesNodes g partition (type :: types) (value :: values) g' := by
  obtain ⟨schema, edges, kept, added⟩ := interned.spec
  refine ⟨rest.schema.trans schema, rest.edges.trans edges, kept.trans rest.kept,
    fun n x live => ?_⟩
  rcases rest.added n x live with before | ⟨placed, i, isType, isValue⟩
  · rcases added n x before with old | ⟨placed, rfl⟩
    · exact .inl old
    · exact .inr ⟨placed, 0, rfl, rfl⟩
  · exact .inr ⟨placed, i + 1, isType, isValue⟩

theorem internNodes_leavesNodes (wf : g.WellFormed) (partition : Partition) (types : List TypeId)
    (values : List Value) :
    LeavesNodes g partition types values (g.internNodes partition types values).2 := by
  induction types generalizing g values with
  | nil => exact .refl g partition [] values
  | cons type types ih =>
    cases values with
    | nil => exact .refl g partition (type :: types) []
    | cons value values =>
      have interned := internNode_interned wf.nodes type value partition
      obtain ⟨grows, _⟩ := internNode_spec wf type value partition
      rw [internNodes]
      generalize g.internNode type value partition = first at interned grows ⊢
      obtain ⟨answer, g₁⟩ := first
      cases answer with
      | error e => exact interned.leavesNodes (.refl g₁ partition types values)
      | ok n =>
        have rest := ih grows.wellFormed values
        simp only
        generalize g₁.internNodes partition types values = others at rest ⊢
        obtain ⟨answer, g₂⟩ := others
        cases answer <;> exact interned.leavesNodes rest

/-! ### Facts -/

/-- What it takes to have the fact of the relation with these arguments in the partition: live
arguments of the declared types; and for a schema fact, that neither an argument nor the fact nor
its witness is temporary. -/
structure Admits (g : Graph) (r : RelationId) (tail : List NodeId) (partition : Partition)
    (R : Relation) (values : List Value) : Prop where
  relation : g.schema.relation? r = some R
  holds : g.nodes.Holds R.argTypes tail values
  arguments : partition = .schema → ∀ n ∈ tail, n.isSchema = true
  fact : partition = .schema → ∀ id head, g.edges.get? id = some ⟨r, head, tail⟩ →
    id.isSchema = true
  witness : partition = .schema → ∀ n, g.nodes.get? n = some ⟨R.witnessType, .tuple values⟩ →
    n.isSchema = true

/-- The ways in which making a fact can end. -/
inductive Made (g : Graph) (r : RelationId) (tail : List NodeId) (partition : Partition) :
    Except StoreError EdgeId → Graph → Prop where
  | refused {e : StoreError} (not_admitted : ¬∃ R values, g.Admits r tail partition R values) :
      Made g r tail partition (.error e) g
  | found {id : EdgeId} {head : NodeId} (live : g.edges.get? id = some ⟨r, head, tail⟩)
      (lasting : partition = .schema → id.isSchema = true) :
      Made g r tail partition (.ok id) g
  /-- The fact is new. So is its witness, unless there was a node like it. -/
  | added {id : EdgeId} {head : NodeId} {R : Relation} {values : List Value} {g' : Graph}
      (absent : ∀ d m, g.edges.get? d ≠ some ⟨r, m, tail⟩)
      (admitted : g.Admits r tail partition R values) (placed : id.partition = partition)
      (schema : g'.schema = g.schema) (edges : g.edges.Gains g'.edges id ⟨r, head, tail⟩)
      (witness : g.nodes.get? head = some ⟨R.witnessType, .tuple values⟩ ∧ g'.nodes = g.nodes ∨
        g.nodes.Gains g'.nodes head ⟨R.witnessType, .tuple values⟩) :
      Made g r tail partition (.ok id) g'

theorem addEdge_made (wf : g.WellFormed) {R : Relation} {values : List Value}
    (isR : g.schema.relation? r = some R) (holds : g.nodes.Holds R.argTypes tail values)
    (lasting : partition = .schema → ∀ n ∈ tail, n.isSchema = true)
    (absent : g.edges.find? r tail = none) :
    Made g r tail partition (g.addEdge r R.witnessType tail values partition).1
      (g.addEdge r R.witnessType tail values partition).2 := by
  have dead : ∀ d m, g.edges.get? d ≠ some ⟨r, m, tail⟩ := by
    intro d m live
    have known := wf.edges.find?_eq_some_iff.mpr ⟨_, live, rfl, rfl⟩
    cases absent.symm.trans known
  have admits (lastingWitness : partition = .schema → ∀ n,
      g.nodes.get? n = some ⟨R.witnessType, .tuple values⟩ → n.isSchema = true) :
      g.Admits r tail partition R values :=
    ⟨isR, holds, lasting, fun _ d m live => absurd live (dead d m), lastingWitness⟩
  have placed (e : Edge) (same : e.relation = r ∧ e.tail = tail) :
      (g.edges.intern e partition).1.partition = partition :=
    EdgeStore.partition_intern (same.1 ▸ same.2 ▸ absent)
  have interned := internNode_interned wf.nodes R.witnessType (.tuple values) partition
  unfold addEdge
  generalize g.internNode R.witnessType (.tuple values) partition = first at interned ⊢
  obtain ⟨answer, g₁⟩ := first
  cases interned with
  | @refused n e live passing asked =>
    refine .refused ?_
    rintro ⟨R', values', admitted⟩
    obtain rfl := Option.some.inj (isR.symm.trans admitted.relation)
    obtain rfl := holds.values_unique admitted.holds
    rw [admitted.witness asked n live] at passing
    cases passing
  | @known head live lastingHead =>
    have admitted := admits fun asked n liveN => wf.nodes.unique live liveN ▸ lastingHead asked
    exact .added dead admitted (placed ⟨r, head, tail⟩ ⟨rfl, rfl⟩) rfl
      (EdgeStore.gains_intern absent) (.inl ⟨live, rfl⟩)
  | @created head nodes absentWitness _ gains =>
    have admitted := admits fun _ n liveN => absurd liveN (absentWitness n)
    exact .added dead admitted (placed ⟨r, head, tail⟩ ⟨rfl, rfl⟩) rfl
      (EdgeStore.gains_intern absent) (.inr gains)

theorem makeEdge_made (wf : g.WellFormed) (r : RelationId) (tail : List NodeId)
    (partition : Partition) :
    Made g r tail partition (g.makeEdge r tail partition).1 (g.makeEdge r tail partition).2 := by
  unfold makeEdge
  cases isR : g.relation r with
  | error e =>
    refine .refused ?_
    rintro ⟨R, values, admitted⟩
    rw [relation_eq_ok_iff.mpr admitted.relation] at isR
    cases isR
  | ok R =>
    have isR' := relation_eq_ok_iff.mp isR
    have sameRelation {R' values} (admitted : g.Admits r tail partition R' values) : R' = R :=
      Option.some.inj (admitted.relation.symm.trans isR')
    simp only
    split
    case isTrue length =>
      refine .refused ?_
      rintro ⟨R', values, admitted⟩
      obtain rfl := sameRelation admitted
      exact length admitted.holds.length_tail
    case isFalse length =>
      have accepts {values : List Value} :
          g.argumentValues R partition 0 R.argTypes tail = .ok values ↔
            g.nodes.Holds R.argTypes tail values ∧
              (partition = .schema → ∀ n ∈ tail, n.isSchema = true) :=
        argumentValues_eq_ok_iff (Decidable.not_not.mp length)
      cases accepted : g.argumentValues R partition 0 R.argTypes tail with
      | error e =>
        refine .refused ?_
        rintro ⟨R', values, admitted⟩
        obtain rfl := sameRelation admitted
        rw [accepts.mpr ⟨admitted.holds, admitted.arguments⟩] at accepted
        cases accepted
      | ok values =>
        obtain ⟨holds, lasting⟩ := accepts.mp accepted
        simp only
        cases known : g.edges.find? r tail with
        | none => exact addEdge_made wf isR' holds lasting known
        | some id =>
          obtain ⟨⟨_, head, _⟩, live, rfl, rfl⟩ := wf.edges.find?_eq_some_iff.mp known
          simp only
          split
          case isTrue conflict =>
            simp only [Bool.and_eq_true, decide_eq_true_eq, Bool.not_eq_true'] at conflict
            refine .refused ?_
            rintro ⟨R', values', admitted⟩
            rw [admitted.fact conflict.1 id head live] at conflict
            cases conflict.2
          case isFalse agrees =>
            refine .found live fun asked => ?_
            simpa [asked] using agrees

/-- The call succeeds just if the fact is admitted. -/
theorem Made.ok_iff (wf : g.WellFormed) {answer : Except StoreError EdgeId}
    (made : Made g r tail partition answer g') :
    (∃ id, answer = .ok id) ↔ ∃ R values, g.Admits r tail partition R values := by
  cases made with
  | refused not_admitted => simp [not_admitted]
  | added _ admitted _ _ _ _ => exact ⟨fun _ => ⟨_, _, admitted⟩, fun _ => ⟨_, rfl⟩⟩
  | @found id head live lasting =>
    refine ⟨fun _ => ?_, fun _ => ⟨id, rfl⟩⟩
    obtain ⟨R, values, fits⟩ := wf.fits live
    have ofSchema (asked : partition = .schema) := wf.lasting live (lasting asked)
    refine ⟨R, values, fits.relation, fits.holds, fun asked => (ofSchema asked).2, ?_, ?_⟩
    · intro asked other m liveOther
      exact wf.edges.unique live liveOther rfl rfl ▸ lasting asked
    · intro asked n liveN
      exact wf.nodes.unique fits.head liveN ▸ (ofSchema asked).1

/-- A call with values that fails leaves at most argument nodes, and nothing if the relation is not
declared. -/
theorem makeEdgeFromValues_error (wf : g.WellFormed) {values : List Value} {e : StoreError}
    (fails : (g.makeEdgeFromValues r values partition).1 = .error e) :
    (g.schema.relation? r = none ∧ (g.makeEdgeFromValues r values partition).2 = g) ∨
      ∃ R, g.schema.relation? r = some R ∧
        LeavesNodes g partition R.argTypes values (g.makeEdgeFromValues r values partition).2 := by
  cases isR : g.schema.relation? r with
  | none => exact .inl ⟨rfl, by simp [makeEdgeFromValues, relation, isR]⟩
  | some R =>
    refine .inr ⟨R, rfl, ?_⟩
    simp only [makeEdgeFromValues, relation_eq_ok_iff.mpr isR] at fails ⊢
    split at fails
    case isTrue length =>
      simp only [if_pos length]
      exact .refl g partition R.argTypes values
    case isFalse length =>
      simp only [if_neg length]
      have leaves := internNodes_leavesNodes wf partition R.argTypes values
      obtain ⟨grows, _⟩ := internNodes_spec wf partition (Decidable.not_not.mp length)
      generalize g.internNodes partition R.argTypes values = interned at fails leaves grows ⊢
      obtain ⟨answer, g₁⟩ := interned
      cases answer with
      | error e => exact leaves
      | ok tail =>
        simp only at fails ⊢
        have made := makeEdge_made grows.wellFormed r tail partition
        rw [fails] at made
        generalize (g₁.makeEdge r tail partition).2 = g₂ at made ⊢
        cases made
        exact leaves

/-! ### Graphs that calls build -/

/-- Making a fact is all or nothing. -/
structure Atomic (g : Graph) : Prop where
  /-- A call fails just if the fact is not admitted, and leaves the graph exactly as it was. -/
  refuses : ∀ r tail partition e, (g.makeEdge r tail partition).1 = .error e →
    (g.makeEdge r tail partition).2 = g ∧ ¬∃ R values, g.Admits r tail partition R values
  /-- A fact that is there is the answer, and nothing changes. -/
  finds : ∀ r tail partition id, g.edges.find? r tail = some id →
    ∀ d, (g.makeEdge r tail partition).1 = .ok d →
      d = id ∧ (g.makeEdge r tail partition).2 = g
  /-- For a fact that is new one edge is added, and its witness unless there is such a node. All
  that was there has its content still. -/
  adds : ∀ r tail partition, g.edges.find? r tail = none →
    ∀ id, (g.makeEdge r tail partition).1 = .ok id →
      ∃ R values head, g.Admits r tail partition R values ∧ id.partition = partition ∧
        (g.makeEdge r tail partition).2.schema = g.schema ∧
        g.edges.Gains (g.makeEdge r tail partition).2.edges id ⟨r, head, tail⟩ ∧
        (g.nodes.get? head = some ⟨R.witnessType, .tuple values⟩ ∧
            (g.makeEdge r tail partition).2.nodes = g.nodes ∨
          g.nodes.Gains (g.makeEdge r tail partition).2.nodes head
            ⟨R.witnessType, .tuple values⟩)
  /-- A fact that is admitted can be had. -/
  admits : ∀ r tail partition R values, g.Admits r tail partition R values →
    ∃ id, (g.makeEdge r tail partition).1 = .ok id
  /-- A call with values that fails adds no edge, and no nodes but arguments with these values and
  the declared types; none at all if the relation is not declared. -/
  leaves : ∀ r values partition e, (g.makeEdgeFromValues r values partition).1 = .error e →
    (g.schema.relation? r = none ∧ (g.makeEdgeFromValues r values partition).2 = g) ∨
      ∃ R, g.schema.relation? r = some R ∧
        LeavesNodes g partition R.argTypes values (g.makeEdgeFromValues r values partition).2

theorem WellFormed.atomic (wf : g.WellFormed) : g.Atomic where
  refuses r tail partition e fails := by
    have made := makeEdge_made wf r tail partition
    generalize g.makeEdge r tail partition = result at made fails ⊢
    obtain ⟨answer, g'⟩ := result
    cases made with
    | refused not_admitted => exact ⟨rfl, not_admitted⟩
    | found _ _ => cases fails
    | added _ _ _ _ _ _ => cases fails
  finds r tail partition id known d answers := by
    have made := makeEdge_made wf r tail partition
    generalize g.makeEdge r tail partition = result at made answers ⊢
    obtain ⟨answer, g'⟩ := result
    obtain ⟨⟨_, head, _⟩, live, rfl, rfl⟩ := wf.edges.find?_eq_some_iff.mp known
    cases made with
    | refused _ => cases answers
    | found liveOther _ =>
      obtain rfl := Except.ok.inj answers
      exact ⟨wf.edges.unique liveOther live rfl rfl, rfl⟩
    | added absent _ _ _ _ _ => exact absurd live (absent id head)
  adds r tail partition new id answers := by
    have made := makeEdge_made wf r tail partition
    generalize g.makeEdge r tail partition = result at made answers ⊢
    obtain ⟨answer, g'⟩ := result
    cases made with
    | refused _ => cases answers
    | found live _ =>
      have known := wf.edges.find?_eq_some_iff.mpr ⟨_, live, rfl, rfl⟩
      cases new.symm.trans known
    | added _ admitted placed schema edges witness =>
      obtain rfl := Except.ok.inj answers
      exact ⟨_, _, _, admitted, placed, schema, edges, witness⟩
  admits r tail partition R values admitted :=
    ((makeEdge_made wf r tail partition).ok_iff wf).mpr ⟨R, values, admitted⟩
  leaves _ _ _ _ := makeEdgeFromValues_error wf

/-- In every graph that a sequence of calls builds, of which some may have failed, making a fact is
all or nothing. -/
theorem performAll_atomic (operations : List Operation) : (performAll operations).Atomic :=
  (wellFormed_performAll operations).atomic

/-- A schema fact whose second value is that of a temporary node leaves its first argument. -/
example : ((performAll [.declareByNames "link" ["point", "point"],
    .internNode ⟨0⟩ (.int 2) .temporary]).makeEdgeFromValues ⟨0⟩ [.int 1, .int 2]
      .schema).2.nodes.schema.toList = [(⟨.schema, 0⟩, ⟨⟨0⟩, .int 1⟩)] := by
  decide +kernel

end Graph

end ScoredChaining
