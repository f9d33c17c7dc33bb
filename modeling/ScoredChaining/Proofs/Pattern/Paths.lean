import ScoredChaining.Pattern.Trie

/-!
A tree of patterns as a map from paths to actions.

* `Trie.Sorted`: the branches of every node stand in the order of their keys.
* `Trie.actionsAt?_updateAt`: changing the actions at a path changes them there and nowhere else.
* `Trie.generatorsAt_addGenerator`, `Trie.factorsAt_addFactor`: a generator or a factor comes after
  those at the end of its path.
-/

namespace ScoredChaining

open Std

variable {γ φ : Type}

/-- The actions at the end of a path. -/
def Trie.actionsAt? (path : List Key) (t : Trie γ φ) : Option (Actions γ φ) :=
  (t.descend? path).bind Trie.actions

/-- The generators at the end of a path. -/
def Trie.generatorsAt (path : List Key) (t : Trie γ φ) : List γ :=
  ((t.actionsAt? path).getD .none).generators

/-- The factors at the end of a path. -/
def Trie.factorsAt (path : List Key) (t : Trie γ φ) : List φ :=
  ((t.actionsAt? path).getD .none).factors

@[simp] theorem Trie.actionsAt?_nil (t : Trie γ φ) : t.actionsAt? [] = t.actions := rfl

theorem Trie.actionsAt?_cons (key : Key) (path : List Key) (t : Trie γ φ) :
    t.actionsAt? (key :: path) = (t.branches.child? key).bind (Trie.actionsAt? path) := by
  simp only [Trie.actionsAt?, Trie.descend?]
  cases t.branches.child? key <;> rfl

@[simp] theorem Trie.actionsAt?_empty (path : List Key) :
    (Trie.empty : Trie γ φ).actionsAt? path = none := by
  cases path with
  | nil => rfl
  | cons key path => rfl

mutual

/-- The branches of every node are in the order of their keys, without repetitions. -/
def Trie.Sorted : Trie γ φ → Prop
  | .node _ branches => branches.Sorted

/-- The branches are in the order of their keys, and so are those below them. -/
def Branches.Sorted : Branches γ φ → Prop
  | .nil => True
  | .cons key child rest =>
    child.Sorted ∧ (∀ k other, rest.child? k = some other → compare key k = .lt) ∧ rest.Sorted

end

theorem Trie.sorted_empty : (Trie.empty : Trie γ φ).Sorted := by
  simp [Trie.empty, Trie.Sorted, Branches.Sorted]

theorem Trie.Sorted.branches {t : Trie γ φ} (sorted : t.Sorted) : t.branches.Sorted := by
  cases t with
  | node _ _ => rwa [Trie.Sorted] at sorted

namespace Branches

theorem Sorted.of_child? {branches : Branches γ φ} {key : Key} {child : Trie γ φ}
    (sorted : branches.Sorted) (found : branches.child? key = some child) :
    child.Sorted := by
  match branches with
  | .nil => simp [Branches.child?] at found
  | .cons k first rest =>
    rw [Branches.Sorted] at sorted
    rw [Branches.child?] at found
    split at found
    · exact Option.some.inj found ▸ sorted.1
    · exact Sorted.of_child? sorted.2.2 found

/-- A key that comes before all others has no branch. -/
theorem child?_eq_none {branches : Branches γ φ} {key : Key}
    (first : ∀ k other, branches.child? k = some other → compare key k = .lt) :
    branches.child? key = none := by
  cases found : branches.child? key with
  | none => rfl
  | some other =>
    have impossible := first key other found
    rw [Std.compare_self] at impossible
    cases impossible

/-- Only the child under the key changes; one that is missing is created. -/
theorem child?_update {branches : Branches γ φ} {key : Key} (sorted : branches.Sorted)
    (change : Trie γ φ → Trie γ φ) (k : Key) :
    (branches.update key change).child? k =
      if k = key then some (change ((branches.child? key).getD .empty))
      else branches.child? k := by
  match branches with
  | .nil => by_cases same : k = key <;> simp [update, child?, same]
  | .cons k₀ first rest =>
    rw [Branches.Sorted] at sorted
    obtain ⟨_, before, sortedRest⟩ := sorted
    rw [update]
    split
    · rename_i lt
      have absent : (Branches.cons k₀ first rest).child? key = none := by
        refine child?_eq_none fun k other found => ?_
        rw [child?] at found
        split at found
        · rename_i same
          exact same ▸ lt
        · exact TransCmp.lt_trans lt (before k other found)
      rw [absent, child?]
      rfl
    · rename_i eq
      obtain rfl := Key.compare_eq_iff.mp eq
      by_cases same : k = key <;> simp [child?, same]
    · rename_i gt
      have differ : key ≠ k₀ := by
        rintro rfl
        rw [Std.compare_self] at gt
        cases gt
      rw [child?, child?_update sortedRest change k]
      by_cases here : k = k₀
      · have : k ≠ key := fun same => differ (same.symm.trans here)
        simp [child?, here, Ne.symm differ]
      · simp [child?, here, differ]

theorem Sorted.update {branches : Branches γ φ} {key : Key} (sorted : branches.Sorted)
    {change : Trie γ φ → Trie γ φ} (keeps : ∀ t : Trie γ φ, t.Sorted → (change t).Sorted) :
    (branches.update key change).Sorted := by
  match branches with
  | .nil =>
    rw [Branches.update, Branches.Sorted]
    exact ⟨keeps _ Trie.sorted_empty, by simp [child?], by simp [Branches.Sorted]⟩
  | .cons k₀ first rest =>
    have whole := sorted
    rw [Branches.Sorted] at sorted
    obtain ⟨sortedFirst, before, sortedRest⟩ := sorted
    rw [Branches.update]
    split
    · rename_i lt
      rw [Branches.Sorted]
      refine ⟨keeps _ Trie.sorted_empty, fun k other found => ?_, whole⟩
      rw [child?] at found
      split at found
      · rename_i same
        exact same ▸ lt
      · exact TransCmp.lt_trans lt (before k other found)
    · rw [Branches.Sorted]
      exact ⟨keeps _ sortedFirst, before, sortedRest⟩
    · rename_i gt
      rw [Branches.Sorted]
      refine ⟨sortedFirst, fun k other found => ?_, Sorted.update sortedRest keeps⟩
      rw [child?_update sortedRest] at found
      split at found
      · rename_i same
        exact same ▸ OrientedCmp.lt_of_gt gt
      · exact before k other found

end Branches

namespace Trie

variable {t : Trie γ φ}

theorem Sorted.updateAt (sorted : t.Sorted)
    (change : Option (Actions γ φ) → Option (Actions γ φ)) (path : List Key) :
    (t.updateAt change path).Sorted := by
  induction path generalizing t with
  | nil =>
    rw [Trie.updateAt, Trie.Sorted]
    exact sorted.branches
  | cons key path ih =>
    rw [Trie.updateAt, Trie.Sorted]
    exact sorted.branches.update fun _ sortedChild => ih sortedChild

theorem Sorted.addGenerator (sorted : t.Sorted) (path : List Key) (generator : γ) :
    (t.addGenerator path generator).Sorted :=
  sorted.updateAt _ path

theorem Sorted.addFactor (sorted : t.Sorted) (path : List Key) (factor : φ) :
    (t.addFactor path factor).Sorted :=
  sorted.updateAt _ path

/-- Changing the actions at a path changes them there and nowhere else. -/
theorem actionsAt?_updateAt (sorted : t.Sorted)
    (change : Option (Actions γ φ) → Option (Actions γ φ)) (path other : List Key) :
    (t.updateAt change path).actionsAt? other =
      if other = path then change (t.actionsAt? path) else t.actionsAt? other := by
  induction path generalizing t other with
  | nil =>
    cases other with
    | nil => rfl
    | cons k other => simp [updateAt, actionsAt?_cons, Trie.branches]
  | cons key path ih =>
    cases other with
    | nil => simp [updateAt, Trie.actions]
    | cons k other =>
      rw [updateAt, actionsAt?_cons, actionsAt?_cons, actionsAt?_cons, Trie.branches]
      rw [Branches.child?_update sorted.branches]
      by_cases same : k = key
      · subst same
        cases found : t.branches.child? k with
        | none => simp [ih sorted_empty]
        | some child => simp [ih (sorted.branches.of_child? found)]
      · simp [same]

theorem generatorsAt_of_actionsAt? {path : List Key} {a : Actions γ φ}
    (found : t.actionsAt? path = some a) : t.generatorsAt path = a.generators := by
  rw [generatorsAt, found, Option.getD_some]

theorem exists_actionsAt? {path : List Key} {generator : γ} {slot : Nat}
    (at_ : (t.generatorsAt path)[slot]? = some generator) :
    ∃ a, t.actionsAt? path = some a ∧ a.generators[slot]? = some generator := by
  rw [generatorsAt] at at_
  cases found : t.actionsAt? path with
  | none => simp [found, Actions.none] at at_
  | some a => exact ⟨a, rfl, by simpa [found] using at_⟩

/-- A generator is attached after those at the end of its path. -/
theorem generatorsAt_addGenerator (sorted : t.Sorted) (path other : List Key) (generator : γ) :
    (t.addGenerator path generator).generatorsAt other =
      t.generatorsAt other ++ if other = path then [generator] else [] := by
  rw [generatorsAt, addGenerator, actionsAt?_updateAt sorted]
  by_cases same : other = path
  · subst same
    simp [generatorsAt, Actions.addGenerator]
  · simp [same, generatorsAt]

theorem generatorsAt_addFactor (sorted : t.Sorted) (path other : List Key) (factor : φ) :
    (t.addFactor path factor).generatorsAt other = t.generatorsAt other := by
  rw [generatorsAt, addFactor, actionsAt?_updateAt sorted]
  by_cases same : other = path
  · subst same
    simp [generatorsAt, Actions.addFactor]
  · simp [same, generatorsAt]

theorem factorsAt_of_actionsAt? {path : List Key} {a : Actions γ φ}
    (found : t.actionsAt? path = some a) : t.factorsAt path = a.factors := by
  rw [factorsAt, found, Option.getD_some]

theorem exists_actionsAt?_of_factor {path : List Key} {factor : φ}
    (mem : factor ∈ t.factorsAt path) : ∃ a, t.actionsAt? path = some a ∧ factor ∈ a.factors := by
  rw [factorsAt] at mem
  cases found : t.actionsAt? path with
  | none => simp [found, Actions.none] at mem
  | some a => exact ⟨a, rfl, by simpa [found] using mem⟩

theorem factorsAt_addGenerator (sorted : t.Sorted) (path other : List Key) (generator : γ) :
    (t.addGenerator path generator).factorsAt other = t.factorsAt other := by
  rw [factorsAt, addGenerator, actionsAt?_updateAt sorted]
  by_cases same : other = path
  · subst same
    simp [factorsAt, Actions.addGenerator]
  · simp [same, factorsAt]

/-- A factor is attached after those at the end of its path. -/
theorem factorsAt_addFactor (sorted : t.Sorted) (path other : List Key) (factor : φ) :
    (t.addFactor path factor).factorsAt other =
      t.factorsAt other ++ if other = path then [factor] else [] := by
  rw [factorsAt, addFactor, actionsAt?_updateAt sorted]
  by_cases same : other = path
  · subst same
    simp [factorsAt, Actions.addFactor]
  · simp [same, factorsAt]

end Trie

end ScoredChaining
