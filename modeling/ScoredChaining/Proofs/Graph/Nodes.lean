import ScoredChaining.Graph.Nodes

/-!
One node for each type and value.

* `NodeArena.Indexed`: the index of an arena lists just its nodes.
* `NodeStore.Canonical`: a type and a value have at most one live node, over both partitions.
* `NodeStore.lookupIn_spec`: a look-up keeps this, keeps the content of every live node, and answers
  with a node of the type and value that were asked for.
-/

namespace ScoredChaining

open Std

namespace NodeArena

variable {a : NodeArena} {type : TypeId} {value : Value} {id : NodeId} {x : Node}

/-- The index lists just the nodes of the arena, each with its place. -/
def Indexed (a : NodeArena) : Prop :=
  ∀ (x : Node) (i : Nat), a.index[x]? = some i ↔ a.nodes[i]? = some x

theorem Indexed.empty (partition : Partition) : Indexed (NodeArena.empty partition) := by
  simp [Indexed, NodeArena.empty]

/-- Without nodes nothing is listed. -/
theorem Indexed.eq_empty (indexed : a.Indexed) (none : a.nodes = #[]) :
    a = .empty a.partition := by
  obtain ⟨partition, nodes, index⟩ := a
  obtain rfl : nodes = #[] := none
  have empty : index = ∅ := by
    apply ExtTreeMap.ext_getElem?
    intro x
    apply Option.ext
    intro i
    rw [indexed x i]
    simp
  rw [empty, NodeArena.empty]

/-- What is found is the node of the type and value. -/
theorem Indexed.find?_eq_some_iff (indexed : a.Indexed) :
    a.find? type value = some id ↔ a.get? id = some ⟨type, value⟩ := by
  obtain ⟨p, i⟩ := id
  simp only [find?, get?, Option.map_eq_some_iff, indexed _ _, NodeId.mk.injEq]
  constructor
  · rintro ⟨_, live, rfl, rfl⟩
    rwa [if_pos rfl]
  · intro live
    split at live
    · rename_i same
      exact ⟨i, live, same.symm, rfl⟩
    · cases live

/-- A node that is new is added to the nodes and to the index. -/
theorem Indexed.add (indexed : a.Indexed) (absent : a.find? type value = none) :
    (a.add type value).2.Indexed := by
  have new : a.index[Node.mk type value]? = none := Option.map_eq_none_iff.mp absent
  intro x i
  simp only [NodeArena.add, ExtTreeMap.getElem?_insert, Array.getElem?_push, Node.compare_eq_iff]
  by_cases same : Node.mk type value = x
  · subst same
    by_cases last : i = a.nodes.size
    · simp [last]
    · have elsewhere : a.nodes[i]? ≠ some ⟨type, value⟩ := by
        rw [Ne, ← indexed, new]
        simp
      simp [last, Ne.symm last, elsewhere]
  · rw [if_neg same, indexed]
    by_cases last : i = a.nodes.size
    · simp [last, same]
    · rw [if_neg last]

theorem get?_add : (a.add type value).2.get? id = some x ↔
    a.get? id = some x ∨ id = (a.add type value).1 ∧ x = ⟨type, value⟩ := by
  obtain ⟨p, i⟩ := id
  simp only [get?, add, NodeId.mk.injEq, Array.getElem?_push]
  by_cases same : p = a.partition
  · by_cases last : i = a.nodes.size
    · simp [same, last, eq_comm]
    · simp [same, last]
  · simp [same]

@[simp] theorem get?_clear : a.clear.get? id = none := by
  simp [get?, clear, empty]

end NodeArena

namespace NodeStore

variable {s s' s'' : NodeStore} {type : TypeId} {value : Value} {id : NodeId} {x : Node}

/-- Every live node of the first store has the same content in the second. -/
def Extends (s s' : NodeStore) : Prop :=
  ∀ n x, s.get? n = some x → s'.get? n = some x

theorem Extends.refl (s : NodeStore) : Extends s s :=
  fun _ _ h => h

theorem Extends.trans (first : Extends s s') (second : Extends s' s'') : Extends s s'' :=
  fun n x h => second n x (first n x h)

/-- A type and a value have at most one live node. -/
structure Canonical (s : NodeStore) : Prop where
  schemaPartition : s.schema.partition = .schema
  temporaryPartition : s.temporary.partition = .temporary
  schemaIndexed : s.schema.Indexed
  temporaryIndexed : s.temporary.Indexed
  unique : ∀ {m n x}, s.get? m = some x → s.get? n = some x → m = n

theorem Canonical.empty : Canonical NodeStore.empty := by
  refine ⟨rfl, rfl, .empty _, .empty _, fun {m n x} h => ?_⟩
  unfold get? at h
  split at h <;> simp [NodeStore.empty, NodeArena.empty, NodeArena.get?] at h

/-- The content of a node, over both partitions. -/
theorem Canonical.get?_eq_some_iff (canonical : s.Canonical) :
    s.get? id = some x ↔ s.schema.get? id = some x ∨ s.temporary.get? id = some x := by
  obtain ⟨p, i⟩ := id
  cases p with
  | schema =>
    have : s.temporary.get? ⟨.schema, i⟩ = none := by
      simp [NodeArena.get?, canonical.temporaryPartition]
    simp [get?, this]
  | temporary =>
    have : s.schema.get? ⟨.temporary, i⟩ = none := by
      simp [NodeArena.get?, canonical.schemaPartition]
    simp [get?, this]

/-- What is found is the live node of the type and value. -/
theorem Canonical.find?_eq_some_iff (canonical : s.Canonical) :
    s.find? type value = some id ↔ s.get? id = some ⟨type, value⟩ := by
  have inSchema {n : NodeId} : s.schema.find? type value = some n ↔
      s.schema.get? n = some ⟨type, value⟩ := canonical.schemaIndexed.find?_eq_some_iff
  rw [find?, Option.or_eq_some_iff, inSchema, canonical.temporaryIndexed.find?_eq_some_iff,
    canonical.get?_eq_some_iff]
  constructor
  · rintro (live | ⟨_, live⟩)
    · exact .inl live
    · exact .inr live
  · intro live
    cases first : s.schema.find? type value with
    | none => exact live.imp_right fun live => ⟨rfl, live⟩
    | some n =>
      have liveN := inSchema.mp first
      have same := canonical.unique (canonical.get?_eq_some_iff.mpr (.inl liveN))
        (canonical.get?_eq_some_iff.mpr live)
      exact .inl (same ▸ liveN)

theorem Canonical.isSchema_of_schema (canonical : s.Canonical) (h : s.schema.get? id = some x) :
    id.isSchema = true := by
  unfold NodeArena.get? at h
  split at h
  · rename_i same
    simp [NodeId.isSchema, same, canonical.schemaPartition]
  · cases h

/-- A node that is new in both partitions can be added to one of them. -/
theorem Canonical.add (canonical : s.Canonical) (partition : Partition)
    (newSchema : s.schema.find? type value = none)
    (newTemporary : s.temporary.find? type value = none) :
    let s' : NodeStore := match partition with
      | .schema => { s with schema := (s.schema.add type value).2 }
      | .temporary => { s with temporary := (s.temporary.add type value).2 }
    let id := match partition with
      | .schema => (s.schema.add type value).1
      | .temporary => (s.temporary.add type value).1
    s'.Canonical ∧ ∀ {n x}, s'.get? n = some x ↔ s.get? n = some x ∨ n = id ∧ x = ⟨type, value⟩ := by
  intro s' id
  have absent : ∀ n, s.get? n ≠ some ⟨type, value⟩ := by
    intro n live
    rcases canonical.get?_eq_some_iff.mp live with inSchema | inTemporary
    · rw [← canonical.schemaIndexed.find?_eq_some_iff, newSchema] at inSchema
      cases inSchema
    · rw [← canonical.temporaryIndexed.find?_eq_some_iff, newTemporary] at inTemporary
      cases inTemporary
  have content : ∀ {n x}, s'.get? n = some x ↔
      s.get? n = some x ∨ n = id ∧ x = ⟨type, value⟩ := by
    rintro ⟨p, i⟩ x
    cases partition <;> cases p <;> simp only [s', id, get?, NodeArena.get?_add]
    · simp [NodeArena.add, canonical.schemaPartition]
    · simp [NodeArena.add, canonical.temporaryPartition]
  refine ⟨⟨?_, ?_, ?_, ?_, ?_⟩, content⟩
  · cases partition <;> exact canonical.schemaPartition
  · cases partition <;> exact canonical.temporaryPartition
  · cases partition with
    | schema => exact canonical.schemaIndexed.add newSchema
    | temporary => exact canonical.schemaIndexed
  · cases partition with
    | schema => exact canonical.temporaryIndexed
    | temporary => exact canonical.temporaryIndexed.add newTemporary
  · intro m n x liveM liveN
    rcases content.mp liveM with oldM | ⟨rfl, rfl⟩
    · rcases content.mp liveN with oldN | ⟨rfl, rfl⟩
      · exact canonical.unique oldM oldN
      · exact absurd oldM (absent m)
    · rcases content.mp liveN with oldN | ⟨rfl, _⟩
      · exact absurd oldN (absent n)
      · rfl

/-- What a look-up guarantees: `answer` is given by a store that has become `s'`. -/
structure Answers (s : NodeStore) (type : TypeId) (value : Value) (partition : Partition)
    (answer : Except StoreError (Option NodeId)) (s' : NodeStore) : Prop where
  canonical : s'.Canonical
  extends_ : s.Extends s'
  found : ∀ {id}, answer = .ok (some id) → s'.get? id = some ⟨type, value⟩
  lasting : ∀ {id}, answer = .ok (some id) → partition = .schema → id.isSchema = true

theorem lookupIn_spec (canonical : s.Canonical) (type : TypeId) (value : Value) (create : Bool)
    (partition : Partition) :
    Answers s type value partition (s.lookupIn type value create partition).1
      (s.lookupIn type value create partition).2 := by
  have unchanged : ∀ {answer}, (∀ id, answer ≠ .ok (some id)) →
      Answers s type value partition answer s := fun absent =>
    ⟨canonical, .refl s, fun h => absurd h (absent _), fun h => absurd h (absent _)⟩
  unfold lookupIn
  cases inSchema : s.schema.find? type value with
  | some id =>
    have live := canonical.schemaIndexed.find?_eq_some_iff.mp inSchema
    refine ⟨canonical, .refl s, ?_, ?_⟩
    · rintro _ ⟨⟩
      exact canonical.get?_eq_some_iff.mpr (.inl live)
    · rintro _ ⟨⟩ _
      exact canonical.isSchema_of_schema live
  | none =>
    cases inTemporary : s.temporary.find? type value with
    | some id =>
      cases partition with
      | schema => exact unchanged (by simp)
      | temporary =>
        refine ⟨by simpa [NodeArena.lookup, inTemporary] using canonical,
          by simpa [NodeArena.lookup, inTemporary] using Extends.refl s, ?_, by simp⟩
        intro other same
        simp only [NodeArena.lookup, inTemporary, Except.ok.injEq, Option.some.injEq] at same ⊢
        subst same
        exact canonical.get?_eq_some_iff.mpr
          (.inr (canonical.temporaryIndexed.find?_eq_some_iff.mp inTemporary))
    | none =>
      cases create with
      | false =>
        cases partition <;> simp only [NodeArena.lookup, inSchema, inTemporary] <;>
          exact unchanged (by simp)
      | true =>
        obtain ⟨canonical', content⟩ := canonical.add partition inSchema inTemporary
        cases partition with
        | schema =>
          simp only [NodeArena.lookup, inSchema, if_true]
          refine ⟨canonical', fun _ _ h => content.mpr (.inl h), ?_, ?_⟩
          · rintro _ ⟨⟩
            exact content.mpr (.inr ⟨rfl, rfl⟩)
          · rintro _ ⟨⟩ _
            simp [NodeArena.add, NodeId.isSchema, canonical.schemaPartition]
        | temporary =>
          simp only [NodeArena.lookup, inTemporary, if_true]
          refine ⟨canonical', fun _ _ h => content.mpr (.inl h), ?_, by simp⟩
          rintro _ ⟨⟩
          exact content.mpr (.inr ⟨rfl, rfl⟩)

/-- A temporary node can always be had. -/
theorem lookupIn_temporary (s : NodeStore) (type : TypeId) (value : Value) :
    ∃ id, (s.lookupIn type value true .temporary).1 = .ok (some id) := by
  unfold lookupIn
  cases s.schema.find? type value with
  | some id => exact ⟨id, rfl⟩
  | none =>
    unfold NodeArena.lookup
    cases s.temporary.find? type value with
    | some id => exact ⟨id, rfl⟩
    | none => exact ⟨_, rfl⟩

/-- Dropping the temporary nodes keeps the schema nodes. -/
theorem Canonical.clearTemporary (canonical : s.Canonical) : s.clearTemporary.Canonical ∧
    ∀ {n x}, s.clearTemporary.get? n = some x ↔ s.get? n = some x ∧ n.isSchema = true := by
  have content : ∀ {n x}, s.clearTemporary.get? n = some x ↔
      s.get? n = some x ∧ n.isSchema = true := by
    rintro ⟨p, i⟩ x
    cases p <;> simp [get?, NodeStore.clearTemporary, NodeId.isSchema]
  refine ⟨⟨canonical.schemaPartition, canonical.temporaryPartition, canonical.schemaIndexed,
    .empty _, fun liveM liveN => ?_⟩, content⟩
  exact canonical.unique (content.mp liveM).1 (content.mp liveN).1

end NodeStore

end ScoredChaining
