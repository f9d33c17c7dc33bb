import ScoredChaining.Schema

/-!
What the names of a schema stand for.

* `Schema.WellFormed`: the name of a relation, and the type of its witnesses, tell it from every
  other relation. Every declaration keeps this (`Schema.WellFormed.declareByNames`).
* `Schema.Extends`: names and numbers keep their meaning when something is declared.
-/

namespace ScoredChaining

namespace Schema

variable {s s' s'' : Schema}

/-- Names and numbers of the first schema mean the same in the second. -/
structure Extends (s s' : Schema) : Prop where
  type : ∀ {name t}, s.type? name = some t → s'.type? name = some t
  found : ∀ {name r}, s.find? name = some r → s'.find? name = some r
  relation : ∀ {r R}, s.relation? r = some R → s'.relation? r = some R

theorem Extends.refl (s : Schema) : Extends s s :=
  ⟨id, id, id⟩

theorem Extends.trans (first : Extends s s') (second : Extends s' s'') : Extends s s'' :=
  ⟨second.type ∘ first.type, second.found ∘ first.found, second.relation ∘ first.relation⟩

/-- A relation is told by its name and by the type of its witnesses. -/
structure WellFormed (s : Schema) : Prop where
  named : ∀ {r R}, s.relation? r = some R → s.find? R.name = some r
  witnessed : ∀ {r R}, s.relation? r = some R → s.type? (witnessMark ++ R.name) = some R.witnessType

/-! ### Names -/

theorem name_of_type? {name : String} {t : TypeId} (h : s.type? name = some t) :
    s.types[t.index]? = some name := by
  obtain ⟨i, found, rfl⟩ := Option.map_eq_some_iff.mp h
  obtain ⟨bound, named, _⟩ := List.findIdx?_eq_some_iff_getElem.mp found
  rw [List.getElem?_eq_getElem bound, ← eq_of_beq named]

theorem type?_injective {name other : String} {t : TypeId} (h : s.type? name = some t)
    (h' : s.type? other = some t) : name = other :=
  Option.some.inj ((name_of_type? h).symm.trans (name_of_type? h'))

theorem relation?_of_find? {name : String} {r : RelationId} (h : s.find? name = some r) :
    ∃ R, s.relation? r = some R ∧ R.name = name := by
  obtain ⟨i, found, rfl⟩ := Option.map_eq_some_iff.mp h
  obtain ⟨bound, named, _⟩ := List.findIdx?_eq_some_iff_getElem.mp found
  exact ⟨s.relations[i], List.getElem?_eq_getElem bound, eq_of_beq named⟩

namespace WellFormed

theorem empty : WellFormed Schema.empty :=
  ⟨by simp [relation?, Schema.empty], by simp [relation?, Schema.empty]⟩

theorem eq_of_name (wf : s.WellFormed) {r r' : RelationId} {R R' : Relation}
    (h : s.relation? r = some R) (h' : s.relation? r' = some R') (same : R.name = R'.name) :
    r = r' :=
  Option.some.inj ((wf.named h).symm.trans (same ▸ wf.named h'))

/-- Different relations have witnesses of different types. -/
theorem eq_of_witnessType (wf : s.WellFormed) {r r' : RelationId} {R R' : Relation}
    (h : s.relation? r = some R) (h' : s.relation? r' = some R')
    (same : R.witnessType = R'.witnessType) : r = r' := by
  refine wf.eq_of_name h h' ?_
  have marked := type?_injective (wf.witnessed h) (same ▸ wf.witnessed h')
  simpa using marked

end WellFormed

/-! ### Declarations -/

theorem internType_extends (s : Schema) (name : String) : Extends s (s.internType name).2 := by
  unfold internType
  split
  · exact .refl s
  · refine ⟨fun {other t} h => ?_, id, id⟩
    obtain ⟨i, found, rfl⟩ := Option.map_eq_some_iff.mp h
    simp [type?, List.findIdx?_append, found]

theorem internType_type? (s : Schema) (name : String) :
    (s.internType name).2.type? name = some (s.internType name).1 := by
  unfold internType
  split
  · rename_i known
    exact known
  · rename_i new
    have fresh : s.types.findIdx? (· == name) = none := Option.map_eq_none_iff.mp new
    simp [type?, List.findIdx?_append, fresh, List.findIdx?_cons]

theorem WellFormed.internType (wf : s.WellFormed) (name : String) :
    (s.internType name).2.WellFormed := by
  have extends_ := internType_extends s name
  have same : ∀ r, (s.internType name).2.relation? r = s.relation? r := by
    intro r
    simp only [relation?, internType_relations]
  exact ⟨fun h => extends_.found (wf.named (same _ ▸ h)),
    fun h => extends_.type (wf.witnessed (same _ ▸ h))⟩

theorem internTypes_extends (s : Schema) (names : List String) :
    Extends s (s.internTypes names).2 := by
  induction names generalizing s with
  | nil => exact .refl s
  | cons name rest ih => exact (internType_extends s name).trans (ih _)

theorem WellFormed.internTypes (wf : s.WellFormed) (names : List String) :
    (s.internTypes names).2.WellFormed := by
  induction names generalizing s with
  | nil => exact wf
  | cons name rest ih => exact ih (wf.internType name)

/-- A relation that is added after the others under a new name. -/
theorem relation?_append {R : Relation} {r : RelationId} {R' : Relation} :
    Schema.relation? { s with relations := s.relations ++ [R] } r = some R' ↔
      s.relation? r = some R' ∨ r = ⟨s.relations.length⟩ ∧ R' = R := by
  obtain ⟨i⟩ := r
  simp only [relation?, RelationId.mk.injEq]
  by_cases old : i < s.relations.length
  · rw [List.getElem?_append_left old]
    have : i ≠ s.relations.length := by omega
    simp [this]
  · rw [List.getElem?_append_right (by omega), List.getElem?_eq_none (Nat.le_of_not_lt old)]
    by_cases last : i = s.relations.length
    · simp [last, eq_comm]
    · have : i - s.relations.length ≠ 0 := by omega
      simp [last, this]

theorem find?_append {R : Relation} {name : String} :
    Schema.find? { s with relations := s.relations ++ [R] } name =
      (s.find? name).or (if R.name = name then some ⟨s.relations.length⟩ else none) := by
  simp only [find?, List.findIdx?_append, List.findIdx?_cons, List.findIdx?_nil]
  cases s.relations.findIdx? (·.name == name) <;> by_cases same : R.name = name <;> simp [same]

theorem declare_extends (s : Schema) (name : String) (argTypes : List TypeId) :
    Extends s (s.declare name argTypes).2 := by
  unfold declare
  split
  · split <;> exact .refl s
  · refine (internType_extends s (witnessMark ++ name)).trans ⟨id, fun h => ?_, fun h => ?_⟩
    · rw [find?_append, h, Option.some_or]
    · exact relation?_append.mpr (.inl h)

theorem WellFormed.declare (wf : s.WellFormed) (name : String) (argTypes : List TypeId) :
    (s.declare name argTypes).2.WellFormed := by
  unfold Schema.declare
  split
  · split <;> exact wf
  · rename_i new
    have wf' := wf.internType (witnessMark ++ name)
    have relations := internType_relations s (witnessMark ++ name)
    have fresh : (s.internType (witnessMark ++ name)).2.find? name = none := by
      simpa only [find?, relations] using new
    refine ⟨fun {r R} h => ?_, fun {r R} h => ?_⟩
    · rw [find?_append]
      rcases relation?_append.mp h with old | ⟨rfl, rfl⟩
      · rw [wf'.named old, Option.some_or]
      · rw [fresh, if_pos rfl, Option.none_or]
    · rcases relation?_append.mp h with old | ⟨_, rfl⟩
      · exact wf'.witnessed old
      · exact internType_type? s (witnessMark ++ name)

theorem declareByNames_extends (s : Schema) (name : String) (typeNames : List String) :
    Extends s (s.declareByNames name typeNames).2 :=
  (internTypes_extends s typeNames).trans (declare_extends _ _ _)

theorem WellFormed.declareByNames (wf : s.WellFormed) (name : String) (typeNames : List String) :
    (s.declareByNames name typeNames).2.WellFormed :=
  (wf.internTypes typeNames).declare _ _

/-- A declaration that succeeds answers with the number of the name, and the relation has these
argument types. -/
theorem declare_ok {name : String} {argTypes : List TypeId} {r : RelationId}
    (h : (s.declare name argTypes).1 = .ok r) :
    (s.declare name argTypes).2.find? name = some r ∧
      ∃ R, (s.declare name argTypes).2.relation? r = some R ∧ R.argTypes = argTypes := by
  unfold declare at h ⊢
  split at h
  · rename_i known found
    split at h
    · rename_i same
      obtain rfl := Except.ok.inj h
      obtain ⟨R, isR, types⟩ := Option.map_eq_some_iff.mp same
      simp only [found, if_pos same]
      exact ⟨trivial, R, isR, types⟩
    · cases h
  · rename_i new
    have fresh : (s.internType (witnessMark ++ name)).2.find? name = none := by
      simpa only [find?, internType_relations] using new
    obtain rfl := Except.ok.inj h
    simp only
    rw [find?_append, fresh, if_pos rfl]
    exact ⟨rfl, _, relation?_append.mpr (.inr ⟨rfl, rfl⟩), rfl⟩

end Schema

end ScoredChaining
