import Mathlib.Data.List.Induction
import ScoredChaining.Proofs.Graph.Nodes

/-!
Sequences of look-ups in a store of nodes, and the numbers they hand out.

* `NodeStore.Outcome`: the ways in which a look-up can end. `NodeStore.lookupIn_outcome`: in a
  canonical store it ends in one of them, so it either leaves the store alone or adds the one node
  that it answers with (`NodeStore.Gains`).
* `NodeStore.Operation`, `NodeStore.performAll`: sequences of calls on an empty store, failing ones
  included. The store is canonical after each (`NodeStore.canonical_performAll`).
* `NodeStore.Issued`: the number was handed out and its partition has not been cleared since.
  `NodeStore.get?_performAll_iff`: just these numbers are live, with the content they were handed
  out for.
* `NodeStore.Interning`: a type and a value have one live number, and all look-ups agree on it.
-/

namespace ScoredChaining

namespace NodeArena

variable {a : NodeArena} {type : TypeId} {value : Value}

/-- The next number is not in use. -/
theorem get?_fst_add : a.get? (a.add type value).1 = none := by
  simp [get?, add]

/-- An arena without nodes is the empty one, whatever was in it before. -/
theorem clear_eq_empty {partition : Partition} (h : a.partition = partition) :
    a.clear = .empty partition := by
  rw [clear, h]

end NodeArena

namespace NodeStore

variable {s s' : NodeStore} {type : TypeId} {value : Value} {create : Bool} {partition : Partition}
  {id : NodeId} {x : Node}

/-! ### One look-up -/

/-- The second store has one node more than the first, under a number that was not in use. -/
structure Gains (s s' : NodeStore) (id : NodeId) (x : Node) : Prop where
  fresh : s.get? id = none
  content : ∀ n, s'.get? n = if n = id then some x else s.get? n

theorem Gains.get?_eq_some_iff {n : NodeId} {y : Node} (gains : Gains s s' id x) :
    s'.get? n = some y ↔ s.get? n = some y ∨ n = id ∧ y = x := by
  rw [gains.content n]
  by_cases same : n = id
  · subst same
    simp [gains.fresh, eq_comm]
  · simp [same]

theorem Gains.of_get?_iff (fresh : s.get? id = none)
    (content : ∀ {n y}, s'.get? n = some y ↔ s.get? n = some y ∨ n = id ∧ y = x) :
    Gains s s' id x := by
  refine ⟨fresh, fun n => Option.ext fun y => content.trans ?_⟩
  by_cases same : n = id
  · simp [same, fresh, eq_comm]
  · simp [same]

/-- The ways in which a look-up can end. -/
inductive Outcome (s : NodeStore) (type : TypeId) (value : Value) (create : Bool)
    (partition : Partition) : Except StoreError (Option NodeId) → NodeStore → Prop where
  /-- There is a node, and it lasts as long as the partition asks for. -/
  | known {id : NodeId} (live : s.get? id = some ⟨type, value⟩)
      (lasting : partition = .schema → id.isSchema = true) :
      Outcome s type value create partition (.ok (some id)) s
  /-- A schema node is asked for, and the node there is will not last. -/
  | conflict {id : NodeId} (live : s.get? id = some ⟨type, value⟩)
      (passing : id.isSchema = false) (asked : partition = .schema) :
      Outcome s type value create partition
        (.error (.partitionConflict type.text value.text)) s
  | missing (absent : ∀ id, s.get? id ≠ some ⟨type, value⟩) (create_eq : create = false) :
      Outcome s type value create partition (.ok none) s
  | created {id : NodeId} {s' : NodeStore} (absent : ∀ id, s.get? id ≠ some ⟨type, value⟩)
      (create_eq : create = true) (placed : id.partition = partition)
      (gains : s.Gains s' id ⟨type, value⟩) :
      Outcome s type value create partition (.ok (some id)) s'

/-- A type and a value that neither index lists have no live node. -/
theorem Canonical.absent (canonical : s.Canonical) (newSchema : s.schema.find? type value = none)
    (newTemporary : s.temporary.find? type value = none) : s.get? id ≠ some ⟨type, value⟩ := by
  rw [Ne, ← canonical.find?_eq_some_iff, find?, newSchema, newTemporary]
  simp

theorem Canonical.isSchema_of_temporary (canonical : s.Canonical)
    (h : s.temporary.get? id = some x) : id.isSchema = false := by
  unfold NodeArena.get? at h
  split at h
  · rename_i same
    simp [NodeId.isSchema, same, canonical.temporaryPartition]
  · cases h

/-- A node that is new in both partitions is all that adding it to one of them changes. -/
theorem Canonical.gains (canonical : s.Canonical) (partition : Partition)
    (newSchema : s.schema.find? type value = none)
    (newTemporary : s.temporary.find? type value = none) :
    let s' : NodeStore := match partition with
      | .schema => { s with schema := (s.schema.add type value).2 }
      | .temporary => { s with temporary := (s.temporary.add type value).2 }
    let id := match partition with
      | .schema => (s.schema.add type value).1
      | .temporary => (s.temporary.add type value).1
    id.partition = partition ∧ s.Gains s' id ⟨type, value⟩ := by
  intro s' id
  obtain ⟨_, content⟩ := canonical.add partition newSchema newTemporary
  have placed : id.partition = partition := by
    cases partition with
    | schema => exact canonical.schemaPartition
    | temporary => exact canonical.temporaryPartition
  have fresh : s.get? id = none := by
    cases partition with
    | schema =>
      rw [get?, placed]
      exact NodeArena.get?_fst_add
    | temporary =>
      rw [get?, placed]
      exact NodeArena.get?_fst_add
  exact ⟨placed, .of_get?_iff fresh content⟩

/-- A look-up in a canonical store ends in one of the ways of `Outcome`. -/
theorem lookupIn_outcome (canonical : s.Canonical) (type : TypeId) (value : Value) (create : Bool)
    (partition : Partition) :
    Outcome s type value create partition (s.lookupIn type value create partition).1
      (s.lookupIn type value create partition).2 := by
  unfold lookupIn
  cases inSchema : s.schema.find? type value with
  | some id =>
    have live := canonical.schemaIndexed.find?_eq_some_iff.mp inSchema
    exact .known (canonical.get?_eq_some_iff.mpr (.inl live)) fun _ =>
      canonical.isSchema_of_schema live
  | none =>
    cases inTemporary : s.temporary.find? type value with
    | some id =>
      have live := canonical.temporaryIndexed.find?_eq_some_iff.mp inTemporary
      have liveBoth := canonical.get?_eq_some_iff.mpr (.inr live)
      cases partition with
      | schema => exact .conflict liveBoth (canonical.isSchema_of_temporary live) rfl
      | temporary =>
        simp only [NodeArena.lookup, inTemporary]
        exact .known liveBoth (by simp)
    | none =>
      have absent : ∀ id, s.get? id ≠ some ⟨type, value⟩ := fun _ =>
        canonical.absent inSchema inTemporary
      cases create with
      | false =>
        cases partition <;> simp only [NodeArena.lookup, inSchema, inTemporary] <;>
          exact .missing absent rfl
      | true =>
        obtain ⟨placed, gains⟩ := canonical.gains partition inSchema inTemporary
        cases partition <;> simp only [NodeArena.lookup, inSchema, inTemporary, if_true] <;>
          exact .created absent rfl placed gains

/-- A look-up that names no partition is one in the temporary partition, which cannot fail. -/
theorem lookupIn_eq_lookup (s : NodeStore) (type : TypeId) (value : Value) (create : Bool) :
    s.lookupIn type value create .temporary =
      (.ok (s.lookup type value create).1, (s.lookup type value create).2) := by
  unfold lookupIn lookup
  cases s.schema.find? type value <;> rfl

theorem Canonical.lookup (canonical : s.Canonical) (type : TypeId) (value : Value)
    (create : Bool) : (s.lookup type value create).2.Canonical := by
  have spec := lookupIn_spec canonical type value create .temporary
  rw [lookupIn_eq_lookup] at spec
  exact spec.canonical

theorem Canonical.clear (canonical : s.Canonical) : s.clear = NodeStore.empty := by
  rw [NodeStore.clear, NodeArena.clear_eq_empty canonical.schemaPartition,
    NodeArena.clear_eq_empty canonical.temporaryPartition, NodeStore.empty]

@[simp] theorem get?_empty : NodeStore.empty.get? id = none := by
  obtain ⟨p, i⟩ := id
  cases p <;> simp [get?, NodeStore.empty, NodeArena.get?, NodeArena.empty]

/-! ### Sequences of calls -/

/-- A call that may change a store of nodes. -/
inductive Operation where
  | lookup (type : TypeId) (value : Value) (create : Bool)
  | lookupIn (type : TypeId) (value : Value) (create : Bool) (partition : Partition)
  | clearTemporary
  | clear

/-- The call drops the nodes of the partition. -/
inductive Operation.Clears : Operation → Partition → Prop where
  | clearTemporary : Clears .clearTemporary .temporary
  | clear {partition : Partition} : Clears .clear partition

/-- The store after a call, which may have failed. -/
def perform (s : NodeStore) : Operation → NodeStore
  | .lookup type value create => (s.lookup type value create).2
  | .lookupIn type value create partition => (s.lookupIn type value create partition).2
  | .clearTemporary => s.clearTemporary
  | .clear => s.clear

/-- Makes the calls in order on an empty store. -/
def performAll (operations : List Operation) : NodeStore :=
  operations.foldl perform empty

/-- The call answers with the number, which is to stand for the content. -/
inductive HandsOut (s : NodeStore) : Operation → NodeId → Node → Prop where
  | lookup {type : TypeId} {value : Value} {create : Bool} {id : NodeId} :
      (s.lookup type value create).1 = some id →
      HandsOut s (.lookup type value create) id ⟨type, value⟩
  | lookupIn {type : TypeId} {value : Value} {create : Bool} {partition : Partition}
      {id : NodeId} : (s.lookupIn type value create partition).1 = .ok (some id) →
      HandsOut s (.lookupIn type value create partition) id ⟨type, value⟩

/-- One of the calls handed the number out for the content, and no later one has cleared its
partition. -/
def Issued (operations : List Operation) (id : NodeId) (x : Node) : Prop :=
  ∃ before operation after, operations = before ++ operation :: after ∧
    (performAll before).HandsOut operation id x ∧
    ∀ later ∈ after, ¬later.Clears id.partition

theorem performAll_append_singleton (operations : List Operation) (operation : Operation) :
    performAll (operations ++ [operation]) = (performAll operations).perform operation := by
  rw [performAll, List.foldl_append]
  rfl

theorem Canonical.perform (canonical : s.Canonical) (operation : Operation) :
    (s.perform operation).Canonical := by
  cases operation with
  | lookup type value create => exact canonical.lookup type value create
  | lookupIn type value create partition =>
    exact (lookupIn_spec canonical type value create partition).canonical
  | clearTemporary => exact canonical.clearTemporary.1
  | clear =>
    rw [NodeStore.perform, canonical.clear]
    exact .empty

theorem canonical_performAll (operations : List Operation) :
    (performAll operations).Canonical := by
  induction operations using List.reverseRecOn with
  | nil => exact .empty
  | append_singleton operations operation ih =>
    rw [performAll_append_singleton]
    exact ih.perform operation

/-- After a look-up just what was live before is live, and the number that is handed out. -/
theorem get?_of_outcome {answer : Except StoreError (Option NodeId)}
    (outcome : Outcome s type value create partition answer s') :
    s'.get? id = some x ↔ s.get? id = some x ∨ answer = .ok (some id) ∧ x = ⟨type, value⟩ := by
  cases outcome with
  | known live _ =>
    constructor
    · exact .inl
    · rintro (old | ⟨⟨⟩, rfl⟩)
      · exact old
      · exact live
  | conflict _ _ _ => simp
  | missing _ _ => simp
  | created _ _ _ gains =>
    rw [gains.get?_eq_some_iff, Except.ok.injEq, Option.some.injEq]
    simp only [eq_comm]

/-- After a call just those numbers are live that were before and are not cleared, and the one that
the call hands out. -/
theorem Canonical.get?_perform_iff (canonical : s.Canonical) {operation : Operation} :
    (s.perform operation).get? id = some x ↔
      s.get? id = some x ∧ ¬operation.Clears id.partition ∨ s.HandsOut operation id x := by
  cases operation with
  | lookup type value create =>
    have kept : ¬(Operation.lookup type value create).Clears id.partition := by
      rintro ⟨⟩
    have outcome := lookupIn_outcome canonical type value create .temporary
    rw [lookupIn_eq_lookup] at outcome
    simp only [NodeStore.perform, get?_of_outcome outcome, kept, not_false_eq_true, and_true,
      Except.ok.injEq]
    refine or_congr_right ⟨?_, ?_⟩
    · rintro ⟨answer, rfl⟩
      exact .lookup answer
    · rintro ⟨answer⟩
      exact ⟨answer, rfl⟩
  | lookupIn type value create partition =>
    have kept : ¬(Operation.lookupIn type value create partition).Clears id.partition := by
      rintro ⟨⟩
    have outcome := lookupIn_outcome canonical type value create partition
    simp only [NodeStore.perform, get?_of_outcome outcome, kept, not_false_eq_true, and_true]
    refine or_congr_right ⟨?_, ?_⟩
    · rintro ⟨answer, rfl⟩
      exact .lookupIn answer
    · rintro ⟨⟩
      rename_i answer
      exact ⟨answer, rfl⟩
  | clearTemporary =>
    have none : ¬s.HandsOut .clearTemporary id x := by
      rintro ⟨⟩
    have cleared : Operation.clearTemporary.Clears id.partition ↔ id.isSchema = false := by
      cases part : id.partition with
      | schema =>
        refine ⟨?_, by simp [NodeId.isSchema, part]⟩
        rintro ⟨⟩
      | temporary => exact ⟨fun _ => by simp [NodeId.isSchema, part], fun _ => .clearTemporary⟩
    simp only [NodeStore.perform, canonical.clearTemporary.2, none, or_false, cleared, Bool.not_eq_false]
  | clear =>
    have none : ¬s.HandsOut .clear id x := by
      rintro ⟨⟩
    have cleared : Operation.clear.Clears id.partition := .clear
    simp [NodeStore.perform, canonical.clear, none, cleared]

theorem issued_append_singleton {operations : List Operation} {operation : Operation} :
    Issued (operations ++ [operation]) id x ↔
      Issued operations id x ∧ ¬operation.Clears id.partition ∨
        (performAll operations).HandsOut operation id x := by
  constructor
  · rintro ⟨before, call, after, split, handed, kept⟩
    rcases List.eq_nil_or_concat after with rfl | ⟨middle, last, rfl⟩
    · obtain ⟨rfl, same⟩ := List.append_inj' split rfl
      obtain rfl := List.singleton_inj.mp same
      exact .inr handed
    · rw [List.concat_eq_append] at split kept
      have split' : operations ++ [operation] = (before ++ call :: middle) ++ [last] := by
        rw [split, List.append_assoc, List.cons_append]
      obtain ⟨rfl, same⟩ := List.append_inj' split' rfl
      obtain rfl := List.singleton_inj.mp same
      refine .inl ⟨⟨before, call, middle, rfl, handed, fun later mem => ?_⟩, ?_⟩
      · exact kept later (List.mem_append_left _ mem)
      · exact kept operation (List.mem_append_right _ (List.mem_singleton_self _))
  · rintro (⟨⟨before, call, after, rfl, handed, kept⟩, notCleared⟩ | handed)
    · refine ⟨before, call, after ++ [operation], ?_, handed, fun later mem => ?_⟩
      · rw [List.append_assoc, List.cons_append]
      · rcases List.mem_append.mp mem with earlier | last
        · exact kept later earlier
        · rwa [List.mem_singleton.mp last]
    · exact ⟨operations, operation, [], rfl, handed, nofun⟩

/-- Just those numbers are live that were handed out and whose partition has not been cleared since,
and they have the content that they were handed out for. -/
theorem get?_performAll_iff {operations : List Operation} :
    (performAll operations).get? id = some x ↔ Issued operations id x := by
  induction operations using List.reverseRecOn with
  | nil =>
    have none : ¬Issued [] id x := by
      rintro ⟨before, call, after, split, _⟩
      simp at split
    simp [performAll, none]
  | append_singleton operations operation ih =>
    rw [performAll_append_singleton, (canonical_performAll operations).get?_perform_iff, ih,
      issued_append_singleton]

/-! ### One number for each type and value -/

/-- A type and a value have one live number at most. All look-ups agree on it, and change the store
only by the node that they create. -/
structure Interning (s : NodeStore) : Prop where
  unique : ∀ m n x, s.get? m = some x → s.get? n = some x → m = n
  found : ∀ type value id, s.find? type value = some id ↔ s.get? id = some ⟨type, value⟩
  /-- A look-up that names no partition is one in the temporary partition. -/
  agrees : ∀ type value create, s.lookupIn type value create .temporary =
    (.ok (s.lookup type value create).1, (s.lookup type value create).2)
  /-- The live number is the answer, but a schema node is one of the schema partition. -/
  finds : ∀ type value id create partition, s.find? type value = some id →
    (partition = .schema → id.isSchema = true) →
    s.lookupIn type value create partition = (.ok (some id), s)
  /-- Without a live number there is no answer, and on request one node is created in the
  partition. -/
  creates : ∀ type value partition, s.find? type value = none →
    s.lookupIn type value false partition = (.ok none, s) ∧
      ∃ id s', s.lookupIn type value true partition = (.ok (some id), s') ∧
        id.partition = partition ∧ s.Gains s' id ⟨type, value⟩
  /-- A look-up fails just if a schema node is asked for and the live node is a temporary one. -/
  fails_iff : ∀ type value create partition e,
    (s.lookupIn type value create partition).1 = .error e ↔
      e = .partitionConflict type.text value.text ∧ partition = .schema ∧
        ∃ id, s.get? id = some ⟨type, value⟩ ∧ id.isSchema = false
  /-- A look-up that fails or is not to create anything changes nothing. -/
  unchanged : ∀ type value create partition,
    create = false ∨ (∃ e, (s.lookupIn type value create partition).1 = .error e) →
    (s.lookupIn type value create partition).2 = s

theorem Canonical.fails_iff (canonical : s.Canonical) {e : StoreError} :
    (s.lookupIn type value create partition).1 = .error e ↔
      e = .partitionConflict type.text value.text ∧ partition = .schema ∧
        ∃ id, s.get? id = some ⟨type, value⟩ ∧ id.isSchema = false := by
  have outcome := lookupIn_outcome canonical type value create partition
  generalize s.lookupIn type value create partition = looked at outcome ⊢
  obtain ⟨answer, after⟩ := looked
  cases outcome with
  | known live lasting =>
    refine ⟨nofun, ?_⟩
    rintro ⟨_, asked, other, liveOther, passing⟩
    rw [canonical.unique liveOther live, lasting asked] at passing
    cases passing
  | conflict live passing asked =>
    constructor
    · rintro ⟨⟩
      exact ⟨rfl, asked, _, live, passing⟩
    · rintro ⟨rfl, _⟩
      rfl
  | missing absent _ => exact ⟨nofun, fun ⟨_, _, id, live, _⟩ => absurd live (absent id)⟩
  | created absent _ _ _ => exact ⟨nofun, fun ⟨_, _, id, live, _⟩ => absurd live (absent id)⟩

theorem Canonical.lookupIn_of_find? (canonical : s.Canonical)
    (found : s.find? type value = some id) (lasting : partition = .schema → id.isSchema = true) :
    s.lookupIn type value create partition = (.ok (some id), s) := by
  have live := canonical.find?_eq_some_iff.mp found
  have outcome := lookupIn_outcome canonical type value create partition
  generalize s.lookupIn type value create partition = looked at outcome ⊢
  obtain ⟨answer, after⟩ := looked
  cases outcome with
  | known liveOther _ => rw [canonical.unique liveOther live]
  | conflict liveOther passing asked =>
    rw [canonical.unique liveOther live, lasting asked] at passing
    cases passing
  | missing absent _ => exact absurd live (absent id)
  | created absent _ _ _ => exact absurd live (absent id)

theorem Canonical.lookupIn_of_find?_eq_none (canonical : s.Canonical)
    (absent : s.find? type value = none) :
    s.lookupIn type value false partition = (.ok none, s) ∧
      ∃ id s', s.lookupIn type value true partition = (.ok (some id), s') ∧
        id.partition = partition ∧ s.Gains s' id ⟨type, value⟩ := by
  have dead : ∀ id, s.get? id ≠ some ⟨type, value⟩ := by
    intro id live
    rw [← canonical.find?_eq_some_iff, absent] at live
    cases live
  constructor
  · have outcome := lookupIn_outcome canonical type value false partition
    generalize s.lookupIn type value false partition = looked at outcome ⊢
    obtain ⟨answer, after⟩ := looked
    cases outcome with
    | known live _ => exact absurd live (dead _)
    | conflict live _ _ => exact absurd live (dead _)
    | missing _ _ => rfl
    | created _ create_eq _ _ => cases create_eq
  · have outcome := lookupIn_outcome canonical type value true partition
    generalize s.lookupIn type value true partition = looked at outcome ⊢
    obtain ⟨answer, after⟩ := looked
    cases outcome with
    | known live _ => exact absurd live (dead _)
    | conflict live _ _ => exact absurd live (dead _)
    | missing _ create_eq => cases create_eq
    | created _ _ placed gains => exact ⟨_, _, rfl, placed, gains⟩

theorem Canonical.lookupIn_unchanged (canonical : s.Canonical)
    (quiet : create = false ∨ ∃ e, (s.lookupIn type value create partition).1 = .error e) :
    (s.lookupIn type value create partition).2 = s := by
  have outcome := lookupIn_outcome canonical type value create partition
  generalize s.lookupIn type value create partition = looked at outcome quiet ⊢
  obtain ⟨answer, after⟩ := looked
  cases outcome with
  | known _ _ => rfl
  | conflict _ _ _ => rfl
  | missing _ _ => rfl
  | created _ create_eq _ _ =>
    rcases quiet with notCreate | ⟨e, fails⟩
    · rw [create_eq] at notCreate
      cases notCreate
    · cases fails

theorem Canonical.interning (canonical : s.Canonical) : s.Interning where
  unique _ _ _ := canonical.unique
  found _ _ _ := canonical.find?_eq_some_iff
  agrees := s.lookupIn_eq_lookup
  finds _ _ _ _ _ := canonical.lookupIn_of_find?
  creates _ _ _ := canonical.lookupIn_of_find?_eq_none
  fails_iff _ _ _ _ _ := canonical.fails_iff
  unchanged _ _ _ _ := canonical.lookupIn_unchanged

/-- After any sequence of look-ups and clearings a type and a value have one live number at most, on
which all look-ups agree, and the live numbers are just those that were handed out and whose
partition has not been cleared since. -/
theorem performAll_interning (operations : List Operation) :
    (performAll operations).Interning ∧
      ∀ id x, (performAll operations).get? id = some x ↔ Issued operations id x :=
  ⟨(canonical_performAll operations).interning, fun _ _ => get?_performAll_iff⟩

/-- A number of the temporary partition is handed out again after it was cleared, for another
content. -/
example : (performAll [.lookup ⟨0⟩ (.int 1) true, .lookupIn ⟨0⟩ (.str "a") true .schema,
    .lookupIn ⟨0⟩ (.int 1) true .schema, .clearTemporary, .lookup ⟨0⟩ (.int 2) true]).temporary.toList =
      [(⟨.temporary, 0⟩, ⟨⟨0⟩, .int 2⟩)] := by
  decide +kernel

end NodeStore

end ScoredChaining
