import ScoredChaining.Graph.Edges

/-!
One edge for each relation and arguments.

* `EdgeStore.Canonical`: the index lists just the live edges, so a relation and arguments have at
  most one.
* `EdgeStore.get?_intern`: an edge that is new is all that interning it adds.
-/

namespace ScoredChaining

open Std

namespace EdgeStore

variable {s s' s'' : EdgeStore} {relation : RelationId} {tail : List NodeId} {id : EdgeId}
  {e x : Edge} {partition : Partition}

/-- Every live edge of the first store has the same content in the second. -/
def Extends (s s' : EdgeStore) : Prop :=
  ∀ id x, s.get? id = some x → s'.get? id = some x

theorem Extends.refl (s : EdgeStore) : Extends s s :=
  fun _ _ h => h

theorem Extends.trans (first : Extends s s') (second : Extends s' s'') : Extends s s'' :=
  fun id x h => second id x (first id x h)

/-- The index lists just the live edges, each under its relation and arguments. -/
def Canonical (s : EdgeStore) : Prop :=
  ∀ key id, s.index[key]? = some id ↔ ∃ e, s.get? id = some e ∧ e.key = key

theorem Canonical.empty : Canonical EdgeStore.empty := by
  rintro key ⟨p, i⟩
  cases p <;> simp [get?, arena, EdgeStore.empty]

/-- What is found is the edge of the relation and arguments. -/
theorem Canonical.find?_eq_some_iff (canonical : s.Canonical) : s.find? relation tail = some id ↔
    ∃ e, s.get? id = some e ∧ e.relation = relation ∧ e.tail = tail := by
  rw [find?, canonical]
  simp only [Edge.key, EdgeKey.mk.injEq]

/-- A relation and arguments have at most one live edge. -/
theorem Canonical.unique (canonical : s.Canonical) {d : EdgeId} {y : Edge}
    (liveX : s.get? d = some x) (liveY : s.get? id = some y)
    (sameRelation : x.relation = y.relation) (sameTail : x.tail = y.tail) : d = id := by
  have foundX := canonical.find?_eq_some_iff.mpr ⟨x, liveX, sameRelation, sameTail⟩
  have foundY := canonical.find?_eq_some_iff.mpr ⟨y, liveY, rfl, rfl⟩
  exact Option.some.inj (foundX.symm.trans foundY)

/-- An edge that is new is added, and nothing else changes. -/
theorem get?_intern (absent : s.find? e.relation e.tail = none) :
    (s.intern e partition).2.get? id = some x ↔
      s.get? id = some x ∨ id = (s.intern e partition).1 ∧ x = e := by
  obtain ⟨p, i⟩ := id
  simp only [intern, absent]
  cases partition with
  | schema =>
    cases p with
    | schema =>
      simp only [get?, arena, Array.getElem?_push, EdgeId.mk.injEq, true_and]
      by_cases last : i = s.schema.size <;> simp [last, eq_comm]
    | temporary => simp [get?, arena]
  | temporary =>
    cases p with
    | schema => simp [get?, arena]
    | temporary =>
      simp only [get?, arena, Array.getElem?_push, EdgeId.mk.injEq, true_and]
      by_cases last : i = s.temporary.size <;> simp [last, eq_comm]

theorem partition_intern (absent : s.find? e.relation e.tail = none) :
    (s.intern e partition).1.partition = partition := by
  simp [intern, absent]

theorem index_intern (absent : s.find? e.relation e.tail = none) :
    (s.intern e partition).2.index = s.index.insert e.key (s.intern e partition).1 := by
  cases partition <;> simp only [intern, absent]

theorem Canonical.intern (canonical : s.Canonical) (absent : s.find? e.relation e.tail = none) :
    (s.intern e partition).2.Canonical := by
  intro key id
  simp only [index_intern absent, ExtTreeMap.getElem?_insert, EdgeKey.compare_eq_iff]
  by_cases same : e.key = key
  · subst same
    rw [if_pos rfl]
    constructor
    · rintro ⟨⟩
      exact ⟨e, (get?_intern absent).mpr (.inr ⟨rfl, rfl⟩), rfl⟩
    · rintro ⟨x, live, sameKey⟩
      rcases (get?_intern absent).mp live with old | ⟨rfl, rfl⟩
      · have known := (canonical e.key id).mpr ⟨x, old, sameKey⟩
        cases absent.symm.trans known
      · rfl
  · rw [if_neg same, canonical]
    constructor
    · rintro ⟨x, live, rfl⟩
      exact ⟨x, (get?_intern absent).mpr (.inl live), rfl⟩
    · rintro ⟨x, live, rfl⟩
      rcases (get?_intern absent).mp live with old | ⟨_, rfl⟩
      · exact ⟨x, old, rfl⟩
      · exact absurd rfl same

/-- Dropping the temporary edges keeps the schema edges. -/
theorem get?_clearTemporary :
    s.clearTemporary.get? id = some x ↔ s.get? id = some x ∧ id.isSchema = true := by
  obtain ⟨p, i⟩ := id
  cases p <;> simp [get?, arena, clearTemporary, EdgeId.isSchema]

theorem Canonical.clearTemporary (canonical : s.Canonical) : s.clearTemporary.Canonical := by
  intro key id
  have kept : s.clearTemporary.index[key]? = s.index[key]?.filter fun id => id.isSchema :=
    ExtTreeMap.getElem?_filter'
  rw [kept, Option.filter_eq_some_iff, canonical]
  constructor
  · rintro ⟨⟨x, live, same⟩, isSchema⟩
    exact ⟨x, get?_clearTemporary.mpr ⟨live, isSchema⟩, same⟩
  · rintro ⟨x, live, same⟩
    obtain ⟨old, isSchema⟩ := get?_clearTemporary.mp live
    exact ⟨⟨x, old, same⟩, isSchema⟩

end EdgeStore

end ScoredChaining
