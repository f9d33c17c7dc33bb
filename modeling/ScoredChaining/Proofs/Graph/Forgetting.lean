import ScoredChaining.Proofs.Graph.Facts
import ScoredChaining.Rule.Firing

/-!
What is left of a graph when a document is forgotten.

* `Graph.Keeps`: a partition is the same in both graphs. What is made in one partition keeps the
  other, also when it fails.
* `Graph.WellFormed.clearTemporary_eq`: graphs that have the same in the schema partition are the
  same when the temporary partition is dropped.
-/

namespace ScoredChaining

open Std

/-- The nodes of one partition. -/
def NodeStore.arena (s : NodeStore) : Partition → NodeArena
  | .schema => s.schema
  | .temporary => s.temporary

namespace Graph

variable {g g' g'' : Graph} {p q : Partition}

/-! ### The other partition -/

/-- The schema and everything in the partition are the same. -/
structure Keeps (p : Partition) (g g' : Graph) : Prop where
  schema : g'.schema = g.schema
  nodes : g'.nodes.arena p = g.nodes.arena p
  edges : g'.edges.arena p = g.edges.arena p

theorem Keeps.refl (p : Partition) (g : Graph) : Keeps p g g :=
  ⟨rfl, rfl, rfl⟩

theorem Keeps.trans (first : Keeps p g g') (second : Keeps p g' g'') : Keeps p g g'' :=
  ⟨second.schema.trans first.schema, second.nodes.trans first.nodes,
    second.edges.trans first.edges⟩

theorem arena_lookupIn (other : p ≠ q) (s : NodeStore) (type : TypeId) (value : Value)
    (create : Bool) : (s.lookupIn type value create q).2.arena p = s.arena p := by
  unfold NodeStore.lookupIn
  split
  · rfl
  · cases q with
    | temporary =>
      cases p with
      | schema => rfl
      | temporary => exact absurd rfl other
    | schema =>
      cases p with
      | schema => exact absurd rfl other
      | temporary =>
        simp only
        split <;> rfl

theorem internNode_keeps (other : p ≠ q) (g : Graph) (type : TypeId) (value : Value) :
    Keeps p g (g.internNode type value q).2 := by
  have nodes := arena_lookupIn other g.nodes type value true
  unfold internNode
  generalize g.nodes.lookupIn type value true q = answer at nodes
  obtain ⟨_ | _ | id, nodes'⟩ := answer <;> exact ⟨rfl, nodes, rfl⟩

theorem internNodes_keeps (other : p ≠ q) (g : Graph) (types : List TypeId)
    (values : List Value) : Keeps p g (g.internNodes q types values).2 := by
  induction types generalizing g values with
  | nil => exact .refl p g
  | cons type types ih =>
    cases values with
    | nil => exact .refl p g
    | cons value values =>
      have first := internNode_keeps other g type value
      rw [internNodes]
      generalize g.internNode type value q = answer at first
      obtain ⟨_ | n, g₁⟩ := answer
      · exact first
      · have rest := first.trans (ih g₁ values)
        simp only
        generalize g₁.internNodes q types values = answer at rest
        obtain ⟨_ | _, g₂⟩ := answer <;> exact rest

theorem intern_keeps (other : p ≠ q) (g : Graph) (e : Edge) :
    Keeps p g { g with edges := (g.edges.intern e q).2 } := by
  refine ⟨rfl, rfl, ?_⟩
  unfold EdgeStore.intern
  split
  · rfl
  · cases p <;> cases q
    · exact absurd rfl other
    · rfl
    · rfl
    · exact absurd rfl other

theorem makeEdge_keeps (other : p ≠ q) (g : Graph) (r : RelationId) (tail : List NodeId) :
    Keeps p g (g.makeEdge r tail q).2 := by
  unfold makeEdge
  split
  · exact .refl p g
  · rename_i R _
    split
    · exact .refl p g
    · split
      · exact .refl p g
      · rename_i values _
        split
        · split <;> exact .refl p g
        · have head := internNode_keeps other g R.witnessType (.tuple values)
          unfold addEdge
          generalize g.internNode R.witnessType (.tuple values) q = answer at head
          obtain ⟨_ | n, g₁⟩ := answer
          · exact head
          · exact head.trans (intern_keeps other g₁ ⟨r, n, tail⟩)

theorem makeEdgeFromValues_keeps (other : p ≠ q) (g : Graph) (r : RelationId)
    (values : List Value) : Keeps p g (g.makeEdgeFromValues r values q).2 := by
  unfold makeEdgeFromValues
  split
  · exact .refl p g
  · rename_i R _
    split
    · exact .refl p g
    · have nodes := internNodes_keeps other g R.argTypes values
      generalize g.internNodes q R.argTypes values = answer at nodes
      obtain ⟨_ | tail, g₁⟩ := answer
      · exact nodes
      · exact nodes.trans (makeEdge_keeps other g₁ r tail)

end Graph

namespace RuleGenerator

theorem conclusionNodes_keeps (text : String) (env : Environment) (args : List Arg)
    (types : List TypeId) (g : Graph) :
    Graph.Keeps .schema g (conclusionNodes text env args types g).2 := by
  induction args generalizing g types with
  | nil => exact .refl _ g
  | cons arg args ih =>
    cases types with
    | nil => cases arg <;> exact .refl _ g
    | cons type types =>
      cases arg with
      | var name =>
        rw [conclusionNodes]
        split
        · exact .refl _ g
        · have rest := ih types g
          generalize conclusionNodes text env args types g = answer at rest
          obtain ⟨_ | _, g'⟩ := answer <;> exact rest
      | const c =>
        have interned : Graph.Keeps .schema g (g.internNode type c .temporary).2 :=
          Graph.internNode_keeps (by simp) g type c
        rw [conclusionNodes]
        generalize g.internNode type c .temporary = answer at interned
        obtain ⟨_ | n, g'⟩ := answer
        · exact interned
        · have rest := interned.trans (ih types g')
          simp only
          generalize conclusionNodes text env args types g' = answer at rest
          obtain ⟨_ | _, g''⟩ := answer <;> exact rest

/-- Asking a generator keeps the schema partition, also when it fails. -/
theorem generate_keeps (r : RuleGenerator) (bindings : List Binding) (g : Graph) :
    Graph.Keeps .schema g (r.generate bindings g).2 := by
  simp only [generate]
  split
  · exact .refl _ g
  · split
    · exact .refl _ g
    · exact .refl _ g
    · rename_i env _
      rw [conclude]
      split
      · exact .refl _ g
      · rename_i signature _
        have nodes := conclusionNodes_keeps r.rule.rule.text env r.rule.rule.conclusion.args
          signature.argTypes g
        generalize conclusionNodes r.rule.rule.text env r.rule.rule.conclusion.args
          signature.argTypes g = answer at nodes
        obtain ⟨_ | tail, g'⟩ := answer
        · exact nodes
        · have made := nodes.trans
            (Graph.makeEdge_keeps (q := .temporary) (by simp) g' r.rule.conclusionRelation tail)
          simp only
          generalize g'.makeEdge r.rule.conclusionRelation tail .temporary = answer at made
          obtain ⟨_ | id, g''⟩ := answer
          · exact made
          · simp only
            split <;> exact made

end RuleGenerator

namespace Graph

variable {g g' : Graph}

/-! ### Forgetting -/

/-- What the partitions have in common stays when the temporary one is dropped. -/
theorem WellFormed.clearTemporary_eq (wf : g.WellFormed) (wf' : g'.WellFormed)
    (keeps : Keeps .schema g g') : g'.clearTemporary = g.clearTemporary := by
  have nodes : g'.nodes.clearTemporary = g.nodes.clearTemporary := by
    rw [NodeStore.clearTemporary, NodeStore.clearTemporary, NodeArena.clear, NodeArena.clear,
      wf.nodes.temporaryPartition, wf'.nodes.temporaryPartition]
    exact congrArg (NodeStore.mk · _) keeps.nodes
  have schema : g'.edges.schema = g.edges.schema := keeps.edges
  have same : ∀ id : EdgeId, id.isSchema = true → g'.edges.get? id = g.edges.get? id := by
    rintro ⟨_ | _, i⟩ isSchema
    · exact congrArg (·[i]?) schema
    · cases isSchema
  have index : g'.edges.clearTemporary.index = g.edges.clearTemporary.index := by
    apply ExtTreeMap.ext_getElem?
    intro key
    apply Option.ext
    intro id
    rw [wf.edges.clearTemporary, wf'.edges.clearTemporary]
    simp only [EdgeStore.get?_clearTemporary]
    constructor <;> rintro ⟨e, ⟨live, isSchema⟩, isKey⟩
    · exact ⟨e, ⟨same id isSchema ▸ live, isSchema⟩, isKey⟩
    · exact ⟨e, ⟨same id isSchema ▸ live, isSchema⟩, isKey⟩
  have edges : g'.edges.clearTemporary = g.edges.clearTemporary := by
    rw [EdgeStore.clearTemporary, EdgeStore.clearTemporary] at index ⊢
    simp only [EdgeStore.mk.injEq, true_and]
    exact ⟨schema, index⟩
  rw [Graph.clearTemporary, Graph.clearTemporary, nodes, edges, keeps.schema]

/-- Nothing is in the temporary partition. -/
structure Cleared (g : Graph) : Prop where
  nodes : g.nodes.temporary.nodes = #[]
  edges : g.edges.temporary = #[]

theorem Cleared.of_eq (same : g.clearTemporary = g) : g.Cleared :=
  ⟨by rw [← same]; rfl, by rw [← same]; rfl⟩

theorem Cleared.of_keeps (cleared : g.Cleared) (keeps : Keeps .temporary g g') : g'.Cleared :=
  ⟨(congrArg NodeArena.nodes keeps.nodes).trans cleared.nodes, keeps.edges.trans cleared.edges⟩

theorem Cleared.isSchema (cleared : g.Cleared) {id : EdgeId} {e : Edge}
    (live : g.edges.get? id = some e) : id.isSchema = true := by
  obtain ⟨_ | _, i⟩ := id
  · rfl
  · simp [EdgeStore.get?, EdgeStore.arena, cleared.edges] at live

/-- Without temporary nodes and facts nothing is forgotten. -/
theorem WellFormed.clearTemporary_self (wf : g.WellFormed) (cleared : g.Cleared) :
    g.clearTemporary = g := by
  have nodes : g.nodes.temporary = .empty .temporary := by
    rw [wf.nodes.temporaryIndexed.eq_empty cleared.nodes, wf.nodes.temporaryPartition]
  have index : g.edges.index.filter (fun _ id => id.isSchema) = g.edges.index := by
    apply ExtTreeMap.ext_getElem?
    intro key
    apply Option.ext
    intro id
    refine (wf.edges.clearTemporary key id).trans (Iff.trans ?_ (wf.edges key id).symm)
    simp only [EdgeStore.get?_clearTemporary]
    exact exists_congr fun e =>
      and_congr_left fun _ => ⟨And.left, fun live => ⟨live, cleared.isSchema live⟩⟩
  have edges : g.edges.clearTemporary = g.edges := by
    rw [EdgeStore.clearTemporary, index, ← cleared.edges]
  rw [Graph.clearTemporary, edges, NodeStore.clearTemporary, NodeArena.clear, nodes]
  simp only [NodeArena.empty]
  rw [← NodeArena.empty, ← nodes]

/-! ### What is made -/

theorem edges_internNode (g : Graph) (type : TypeId) (value : Value) (p : Partition) :
    (g.internNode type value p).2.edges = g.edges := by
  unfold internNode
  split <;> rfl

theorem edges_internNodes (g : Graph) (p : Partition) (types : List TypeId) (values : List Value) :
    (g.internNodes p types values).2.edges = g.edges := by
  induction types generalizing g values with
  | nil => rfl
  | cons type types ih =>
    cases values with
    | nil => rfl
    | cons value values =>
      have first := edges_internNode g type value p
      rw [internNodes]
      generalize g.internNode type value p = answer at first
      obtain ⟨_ | n, g₁⟩ := answer
      · exact first
      · have rest := (ih g₁ values).trans first
        simp only
        generalize g₁.internNodes p types values = answer at rest
        obtain ⟨_ | _, g₂⟩ := answer <;> exact rest

variable {r : RelationId} {id d : EdgeId} {x : Edge}

/-- Making a fact makes no other fact. -/
theorem live_makeEdge {tail : List NodeId} (made : (g.makeEdge r tail p).1 = .ok id)
    (live : (g.makeEdge r tail p).2.edges.get? d = some x) :
    g.edges.get? d = some x ∨ d = id := by
  unfold makeEdge at made live
  cases isR : g.relation r with
  | error failure => simp [isR] at made
  | ok R =>
    simp only [isR] at made live
    split at made
    · cases made
    · rename_i arity
      rw [if_neg arity] at live
      cases accepted : g.argumentValues R p 0 R.argTypes tail with
      | error failure => simp [accepted] at made
      | ok values =>
        simp only [accepted] at made live
        cases known : g.edges.find? r tail with
        | some old =>
          simp only [known] at live
          split at live <;> exact .inl live
        | none =>
          simp only [known, addEdge] at made live
          have edges := edges_internNode g R.witnessType (.tuple values) p
          generalize g.internNode R.witnessType (.tuple values) p = answer at made live edges
          obtain ⟨_ | head, g₁⟩ := answer
          · cases made
          · obtain rfl := Except.ok.inj made
            replace edges : g₁.edges = g.edges := edges
            have absent : g₁.edges.find? r tail = none := by rw [edges, known]
            rw [← edges]
            exact ((EdgeStore.get?_intern (e := ⟨r, head, tail⟩) absent).mp live).imp_right And.left

theorem live_makeEdgeFromValues {values : List Value}
    (made : (g.makeEdgeFromValues r values p).1 = .ok id)
    (live : (g.makeEdgeFromValues r values p).2.edges.get? d = some x) :
    g.edges.get? d = some x ∨ d = id := by
  unfold makeEdgeFromValues at made live
  cases isR : g.relation r with
  | error failure => simp [isR] at made
  | ok R =>
    simp only [isR] at made live
    split at made
    · cases made
    · rename_i arity
      rw [if_neg arity] at live
      have edges := edges_internNodes g p R.argTypes values
      generalize g.internNodes p R.argTypes values = answer at made live edges
      obtain ⟨_ | tail, g₁⟩ := answer
      · cases made
      · replace edges : g₁.edges = g.edges := edges
        rw [← edges]
        exact live_makeEdge made live

end Graph

end ScoredChaining
