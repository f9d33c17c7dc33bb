import Mathlib.Data.Set.Card
import ScoredChaining.Proofs.Pattern.Paths

/-!
Trees of patterns that are built by registrations.

* `Trie.listed`: the nodes of a tree, in order, each with what a function finds in its actions. The
  paths with actions and the number of nodes are two cases of it (`Trie.paths_eq`, `Trie.size_eq`).
* `Trie.mem_listed_iff`, `Trie.pairwise_listed`: the listing is the function `Trie.descend?`, in
  lexicographic order of the paths.
* `Trie.ofRegistrations_map`: a tree that is built by registrations is a map from paths to lists of
  generators and factors, and its nodes are the beginnings of the registered paths.
-/

namespace ScoredChaining

open Std

variable {γ φ β : Type} {t : Trie γ φ} {path : List Key}

/-! ### The nodes of a tree -/

mutual

/-- The nodes of the tree with what is found in their actions, each with its path. -/
def Trie.listed (find : Option (Actions γ φ) → Option β) : Trie γ φ → List (List Key × β)
  | .node actions branches => (find actions).toList.map (([], ·)) ++ branches.listed find

/-- The nodes of the branches with what is found in their actions, each with its path. -/
def Branches.listed (find : Option (Actions γ φ) → Option β) :
    Branches γ φ → List (List Key × β)
  | .nil => []
  | .cons key child rest =>
    ((child.listed find).map fun (path, b) => (key :: path, b)) ++ rest.listed find

end

mutual

theorem Trie.paths_eq : (t : Trie γ φ) → t.paths = t.listed id
  | .node none branches => by
    rw [Trie.paths, Trie.listed, branches.paths_eq]
    rfl
  | .node (some a) branches => by
    rw [Trie.paths, Trie.listed, branches.paths_eq]
    rfl

theorem Branches.paths_eq : (branches : Branches γ φ) → branches.paths = branches.listed id
  | .nil => by rw [Branches.paths, Branches.listed]
  | .cons key child rest => by rw [Branches.paths, Branches.listed, child.paths_eq, rest.paths_eq]

end

mutual

theorem Trie.size_eq : (t : Trie γ φ) → t.size = (t.listed fun _ => some ()).length
  | .node actions branches => by
    rw [Trie.size, Trie.listed, List.length_append, branches.size_eq]
    rfl

theorem Branches.size_eq : (branches : Branches γ φ) →
    branches.size = (branches.listed fun _ => some ()).length
  | .nil => by rw [Branches.size, Branches.listed, List.length_nil]
  | .cons key child rest => by
    rw [Branches.size, Branches.listed, List.length_append, List.length_map, child.size_eq,
      rest.size_eq]

end

section Listed

variable {find : Option (Actions γ φ) → Option β} {b : β}

theorem Branches.nil_not_mem_listed (branches : Branches γ φ) : ([], b) ∉ branches.listed find := by
  match branches with
  | .nil => simp [Branches.listed]
  | .cons key child rest => simp [Branches.listed, rest.nil_not_mem_listed]

/-- The nodes of the branches below a key are those of its child. -/
theorem Branches.mem_listed_iff {branches : Branches γ φ} (sorted : branches.Sorted) {key : Key} :
    (key :: path, b) ∈ branches.listed find ↔
      ∃ child, branches.child? key = some child ∧ (path, b) ∈ child.listed find := by
  match branches with
  | .nil => simp [Branches.listed, Branches.child?]
  | .cons k child rest =>
    rw [Branches.Sorted] at sorted
    obtain ⟨-, before, sortedRest⟩ := sorted
    rw [Branches.listed, List.mem_append, Branches.mem_listed_iff sortedRest, Branches.child?]
    by_cases same : key = k
    · subst same
      simp [Branches.child?_eq_none before]
    · simp [same, Ne.symm same]

/-- A node is listed with its path if something is found in its actions. -/
theorem Trie.mem_listed_iff (sorted : t.Sorted) :
    (path, b) ∈ t.listed find ↔ ∃ s, t.descend? path = some s ∧ find s.actions = some b := by
  induction path generalizing t with
  | nil =>
    obtain ⟨actions, branches⟩ := t
    simp [Trie.listed, Trie.descend?, Trie.actions, branches.nil_not_mem_listed]
  | cons key path ih =>
    obtain ⟨actions, branches⟩ := t
    have below : (key :: path, b) ∈ branches.listed find ↔
        ∃ child, branches.child? key = some child ∧ (path, b) ∈ child.listed find :=
      Branches.mem_listed_iff sorted.branches
    rw [Trie.listed, List.mem_append, below]
    constructor
    · rintro (here | ⟨child, found, listed⟩)
      · simp at here
      · obtain ⟨s, reached, isFound⟩ := (ih (sorted.branches.of_child? found)).mp listed
        exact ⟨s, by rw [Trie.descend?, Trie.branches, found, Option.bind_some, reached], isFound⟩
    · rintro ⟨s, reached, isFound⟩
      obtain ⟨child, found, reached⟩ := Option.bind_eq_some_iff.mp reached
      exact .inr ⟨child, found, (ih (sorted.branches.of_child? found)).mpr ⟨s, reached, isFound⟩⟩

/-- The first key of a path in branches is the one of a branch. -/
theorem Branches.exists_child_of_mem_listed {branches : Branches γ φ} (sorted : branches.Sorted)
    (mem : path ∈ (branches.listed find).map Prod.fst) :
    ∃ key rest child, path = key :: rest ∧ branches.child? key = some child := by
  obtain ⟨⟨path, b⟩, listed, rfl⟩ := List.mem_map.mp mem
  cases path with
  | nil => exact absurd listed branches.nil_not_mem_listed
  | cons key rest =>
    obtain ⟨child, found, -⟩ := (Branches.mem_listed_iff sorted).mp listed
    exact ⟨key, rest, child, rfl, found⟩

mutual

/-- The nodes are listed in lexicographic order of their paths, each once. -/
theorem Trie.pairwise_listed : {t : Trie γ φ} → (sorted : t.Sorted) →
    ((t.listed find).map Prod.fst).Pairwise (compare · · = .lt)
  | .node actions branches, sorted => by
    have sortedBranches : branches.Sorted := sorted.branches
    rw [Trie.listed, List.map_append, List.pairwise_append]
    refine ⟨?_, Branches.pairwise_listed sortedBranches, fun p root q below => ?_⟩
    · cases find actions <;> simp
    · obtain ⟨key, rest, _, rfl, _⟩ := Branches.exists_child_of_mem_listed sortedBranches below
      obtain ⟨-, rfl⟩ : find actions ≠ none ∧ p = [] := by simpa using root
      rfl

/-- So are those of branches. -/
theorem Branches.pairwise_listed : {branches : Branches γ φ} → (sorted : branches.Sorted) →
    ((branches.listed find).map Prod.fst).Pairwise (compare · · = .lt)
  | .nil, _ => by
    rw [Branches.listed]
    exact .nil
  | .cons key child rest, sorted => by
    rw [Branches.Sorted] at sorted
    obtain ⟨sortedChild, before, sortedRest⟩ := sorted
    have first : (((child.listed find).map fun (path, b) => (key :: path, b)).map Prod.fst) =
        ((child.listed find).map Prod.fst).map (key :: ·) := by
      rw [List.map_map, List.map_map]
      rfl
    rw [Branches.listed, List.map_append, first, List.pairwise_append, List.pairwise_map]
    refine ⟨?_, Branches.pairwise_listed sortedRest, fun p inFirst q inRest => ?_⟩
    · refine (Trie.pairwise_listed sortedChild).imp fun {p q} order => ?_
      rwa [List.compare_cons_cons, Std.compare_self]
    · obtain ⟨_, _, rfl⟩ := List.mem_map.mp inFirst
      obtain ⟨k, _, other, rfl, found⟩ := Branches.exists_child_of_mem_listed sortedRest inRest
      rw [List.compare_cons_cons, before k other found]
      rfl

end

end Listed

/-! ### Paths that lead to nodes -/

namespace Trie

@[simp] theorem isSome_descend?_empty :
    ((empty : Trie γ φ).descend? path).isSome = true ↔ path = [] := by
  cases path <;> simp [descend?, empty, branches, Branches.child?]

/-- Changing the actions at a path creates the nodes on it and no others. -/
theorem isSome_descend?_updateAt (sorted : t.Sorted)
    (change : Option (Actions γ φ) → Option (Actions γ φ)) (target : List Key) :
    ((t.updateAt change target).descend? path).isSome = true ↔
      path <+: target ∨ (t.descend? path).isSome = true := by
  induction path generalizing t target with
  | nil => simp [descend?]
  | cons k path ih =>
    cases target with
    | nil => simp [updateAt, descend?, branches]
    | cons key target =>
      rw [updateAt, descend?, descend?, Trie.branches, Branches.child?_update sorted.branches,
        List.cons_prefix_cons]
      by_cases same : k = key
      · subst same
        cases found : t.branches.child? k with
        | none =>
          have beginning : path = [] → path <+: target := fun none => none ▸ List.nil_prefix
          simpa [ih sorted_empty] using beginning
        | some child => simp [ih (sorted.branches.of_child? found)]
      · simp [same]

end Trie

/-! ### Registrations -/

/-- What is registered in a tree of patterns: a path alone, or what a walk along it triggers. -/
inductive Registration (γ φ : Type) where
  | bare (path : List Key)
  | generator (path : List Key) (generator : γ)
  | factor (path : List Key) (factor : φ)

namespace Registration

/-- The path. -/
def target : Registration γ φ → List Key
  | .bare path => path
  | .generator path _ => path
  | .factor path _ => path

/-- The generator, if one is registered at the path. -/
def generatorAt? (path : List Key) : Registration γ φ → Option γ
  | .generator target g => if target = path then some g else none
  | _ => none

/-- The factor, if one is registered at the path. -/
def factorAt? (path : List Key) : Registration γ φ → Option φ
  | .factor target f => if target = path then some f else none
  | _ => none

/-- Registers in a tree. -/
def perform (t : Trie γ φ) : Registration γ φ → Trie γ φ
  | .bare path => t.insertPath path
  | .generator path g => t.addGenerator path g
  | .factor path f => t.addFactor path f

/-- What becomes of the actions at the end of the path. -/
def change : Registration γ φ → Option (Actions γ φ) → Option (Actions γ φ)
  | .bare _, actions => actions
  | .generator _ g, actions => some ((actions.getD .none).addGenerator g)
  | .factor _ f, actions => some ((actions.getD .none).addFactor f)

theorem perform_eq (t : Trie γ φ) (r : Registration γ φ) :
    r.perform t = t.updateAt r.change r.target := by
  cases r <;> rfl

end Registration

namespace Actions

/-- The actions, if there is something to do. -/
def nonempty? (a : Actions γ φ) : Option (Actions γ φ) :=
  if a.isEmpty then Option.none else some a

@[simp] theorem getD_nonempty? (a : Actions γ φ) : a.nonempty?.getD .none = a := by
  obtain ⟨_ | _, _ | _⟩ := a <;> rfl

theorem nonempty?_eq_some_iff {a b : Actions γ φ} :
    a.nonempty? = some b ↔ b = a ∧ a.isEmpty = false := by
  rw [nonempty?]
  split_ifs with nothing <;> simp [nothing, eq_comm]

/-- What registrations attach to the end of a path, in their order. -/
def attached (path : List Key) (rs : List (Registration γ φ)) : Actions γ φ where
  generators := rs.filterMap (·.generatorAt? path)
  factors := rs.filterMap (·.factorAt? path)

/-- The last registration changes what is attached to its path, and to no other. -/
theorem nonempty?_attached_concat (path : List Key) (rs : List (Registration γ φ))
    (r : Registration γ φ) : (attached path (rs ++ [r])).nonempty? =
      if path = r.target then r.change (attached path rs).nonempty?
      else (attached path rs).nonempty? := by
  split_ifs with same
  · subst same
    cases r with
    | bare target =>
      simp [attached, Registration.generatorAt?, Registration.factorAt?, Registration.change]
    | generator target g =>
      have last : attached target (rs ++ [.generator target g]) =
          (attached target rs).addGenerator g := by
        simp [attached, addGenerator, Registration.generatorAt?, Registration.factorAt?]
      have some : ((attached target rs).addGenerator g).isEmpty = false := by
        simp [isEmpty, addGenerator]
      rw [Registration.target, last, Registration.change, getD_nonempty?, nonempty?, some]
      rfl
    | factor target f =>
      have last : attached target (rs ++ [.factor target f]) =
          (attached target rs).addFactor f := by
        simp [attached, addFactor, Registration.generatorAt?, Registration.factorAt?]
      have some : ((attached target rs).addFactor f).isEmpty = false := by
        simp [isEmpty, addFactor]
      rw [Registration.target, last, Registration.change, getD_nonempty?, nonempty?, some]
      rfl
  · have nothing : r.generatorAt? path = Option.none ∧ r.factorAt? path = Option.none := by
      cases r <;> simp_all [Registration.generatorAt?, Registration.factorAt?,
        Registration.target, eq_comm]
    simp [attached, nothing]

end Actions

namespace Trie

/-- The tree that registrations build. -/
def ofRegistrations (rs : List (Registration γ φ)) : Trie γ φ :=
  rs.foldl Registration.perform .empty

theorem ofRegistrations_concat (rs : List (Registration γ φ)) (r : Registration γ φ) :
    ofRegistrations (rs ++ [r]) = (ofRegistrations rs).updateAt r.change r.target := by
  rw [ofRegistrations, List.foldl_concat, Registration.perform_eq]
  rfl

theorem sorted_ofRegistrations (rs : List (Registration γ φ)) : (ofRegistrations rs).Sorted := by
  induction rs using List.reverseRecOn with
  | nil => exact sorted_empty
  | append_singleton rs r ih =>
    rw [ofRegistrations_concat]
    exact ih.updateAt _ _

/-- At the end of a path stands what was registered there. -/
theorem actionsAt?_ofRegistrations (rs : List (Registration γ φ)) (path : List Key) :
    (ofRegistrations rs).actionsAt? path = (Actions.attached path rs).nonempty? := by
  induction rs using List.reverseRecOn generalizing path with
  | nil => exact actionsAt?_empty path
  | append_singleton rs r ih =>
    rw [ofRegistrations_concat, actionsAt?_updateAt (sorted_ofRegistrations rs),
      Actions.nonempty?_attached_concat, ih, ih]
    split_ifs with same
    · rw [same]
    · rfl

/-- A path leads to a node if it begins a registered one. -/
theorem isSome_descend?_ofRegistrations (rs : List (Registration γ φ)) (path : List Key) :
    ((ofRegistrations rs).descend? path).isSome = true ↔
      path = [] ∨ ∃ r ∈ rs, path <+: r.target := by
  induction rs using List.reverseRecOn with
  | nil => simp [ofRegistrations]
  | append_singleton rs r ih =>
    rw [ofRegistrations_concat, isSome_descend?_updateAt (sorted_ofRegistrations rs), ih]
    simp only [List.mem_append, List.mem_singleton, or_and_right, exists_or, exists_eq_left]
    exact or_comm.trans or_assoc

/-- The number of nodes is the number of paths that lead to one. -/
theorem size_eq_ncard (sorted : t.Sorted) :
    t.size = Set.ncard {path | (t.descend? path).isSome = true} := by
  have nodup : ((t.listed fun _ => some ()).map Prod.fst).Nodup :=
    (pairwise_listed sorted).imp fun {p q} order same => by
      rw [same, Std.compare_self] at order
      cases order
  have nodes : {path | (t.descend? path).isSome = true} =
      ((t.listed fun _ => some ()).map Prod.fst).toFinset := by
    ext path
    simp [mem_listed_iff sorted, Option.isSome_iff_exists]
  rw [nodes, Set.ncard_coe_finset, List.toFinset_card_of_nodup nodup, List.length_map, size_eq]

/-- A tree that is built by registrations is a map from paths to actions: it lists the paths at which
something is registered, each once and in lexicographic order, with all that is registered there in
the order of registration. Its nodes are the beginnings of registered paths, and a registration
changes what stands at its own path only. -/
theorem ofRegistrations_map (rs : List (Registration γ φ)) :
    ((ofRegistrations rs).paths.map Prod.fst).Pairwise (compare · · = .lt) ∧
    (∀ path a, (path, a) ∈ (ofRegistrations rs).paths ↔
      a = Actions.attached path rs ∧ a.isEmpty = false) ∧
    (∀ path, ((ofRegistrations rs).descend? path).isSome = true ↔
      path = [] ∨ ∃ r ∈ rs, path <+: r.target) ∧
    (ofRegistrations rs).size = Set.ncard {path | path = [] ∨ ∃ r ∈ rs, path <+: r.target} ∧
    ∀ (r : Registration γ φ) (path : List Key), (r.perform (ofRegistrations rs)).actionsAt? path =
      if path = r.target then r.change ((ofRegistrations rs).actionsAt? path)
      else (ofRegistrations rs).actionsAt? path := by
  have sorted := sorted_ofRegistrations rs
  refine ⟨?_, fun path a => ?_, isSome_descend?_ofRegistrations rs, ?_, fun r path => ?_⟩
  · rw [paths_eq]
    exact pairwise_listed sorted
  · have listed : (path, a) ∈ (ofRegistrations rs).paths ↔
        (ofRegistrations rs).actionsAt? path = some a := by
      rw [paths_eq, mem_listed_iff sorted, actionsAt?, Option.bind_eq_some_iff]
      rfl
    rw [listed, actionsAt?_ofRegistrations, Actions.nonempty?_eq_some_iff]
    refine and_congr_right fun same => ?_
    rw [same]
  · simp only [size_eq_ncard sorted, isSome_descend?_ofRegistrations]
  · rw [Registration.perform_eq, actionsAt?_updateAt sorted]
    split_ifs with same
    · rw [same]
    · rfl

end Trie

end ScoredChaining
