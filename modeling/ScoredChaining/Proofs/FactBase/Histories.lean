import Mathlib.Data.List.Induction
import ScoredChaining.Proofs.FactBase

/-!
Sequences of changes of the committed facts, and what holds after them.

* `FactBase.Change`, `FactBase.applyAll`: committing a fact, dropping the temporary facts and
  dropping all facts, in any order, from no facts on.
* `FactBase.standing`: the facts that were added and have not been dropped since.
  `FactBase.applyAll_eq`: it is all the same as to add these alone.
* `FactBase.Mirrors`: how the order of the commits, the contents, the lists of the nodes and the
  neighbours follow from the facts that were added. `FactBase.adjacency_applyAll`: they do so after
  any sequence of changes.
-/

namespace ScoredChaining

open Std

namespace Edge

/-- The positions of a fact, the witness first. -/
def positions (e : Edge) : List Position :=
  .head :: (List.range e.arity).map .tail

/-- The positions at which a node stands in a fact, in order. -/
def positionsOf (e : Edge) (n : NodeId) : List Position :=
  e.positions.filter fun p => e.nodeAt? p = some n

theorem map_snd_placedFrom (i : Nat) (ns : List NodeId) :
    (placedFrom i ns).map Prod.snd = (List.range ns.length).map fun k => .tail (i + k) := by
  induction ns generalizing i with
  | nil => rfl
  | cons n rest ih =>
    simp only [placedFrom, List.map_cons, ih, List.length_cons, List.range_succ_eq_map,
      List.map_map, Nat.add_zero, List.cons.injEq, true_and]
    exact List.map_congr_left fun k _ => by simp [Nat.add_assoc, Nat.add_comm 1]

/-- The endpoints at a node have the positions of the node. -/
theorem map_snd_filter_endpoints (e : Edge) (n : NodeId) :
    (e.endpoints.filter fun x => x.1 = n).map Prod.snd = e.positionsOf n := by
  have all : e.positions = e.endpoints.map Prod.snd := by
    simp [positions, endpoints, map_snd_placedFrom, arity]
  rw [positionsOf, all, List.filter_map]
  congr 1
  refine List.filter_congr fun x mem => ?_
  simp [mem_endpoints.mp mem]

end Edge

namespace FactBase

variable {s : FactBase} {id : EdgeId} {e : Edge}

/-- A change of the committed facts. -/
inductive Change where
  | add (id : EdgeId) (e : Edge)
  | clearTemporary
  | clear

/-- The fact base after a change. -/
def apply (s : FactBase) : Change → FactBase
  | .add id e => (s.add id e).2
  | .clearTemporary => s.clearTemporary
  | .clear => s.clear

/-- Makes the changes in order, from no facts on. -/
def applyAll (changes : List Change) : FactBase :=
  changes.foldl apply empty

/-- Adds facts in order, from no facts on. -/
def addAll (facts : List (EdgeId × Edge)) : FactBase :=
  facts.foldl (fun s (id, e) => (s.add id e).2) empty

/-- The change drops the fact with this number. -/
def Change.drops (id : EdgeId) : Change → Bool
  | .add _ _ => false
  | .clearTemporary => !id.isSchema
  | .clear => true

/-- The facts that were added and have not been dropped since, in order. One that was added more
than once stands more than once. -/
def standing : List Change → List (EdgeId × Edge)
  | [] => []
  | .add id e :: rest => if rest.any (·.drops id) then standing rest else (id, e) :: standing rest
  | .clearTemporary :: rest | .clear :: rest => standing rest

/-- The fact base is what adding these facts in order comes to. -/
structure Mirrors (s : FactBase) (added : List (EdgeId × Edge)) : Prop where
  /-- The committed facts stand in the order in which they were first added. -/
  order : s.order = (added.map Prod.fst).eraseDups
  once : s.order.Nodup
  committed : ∀ id, id ∈ s.order ↔ s.contains id = true
  /-- A fact has the content with which it was first added. -/
  content : ∀ id, s.edge? id = added.lookup id
  /-- A node lists the committed facts in which it stands, in the order of their commits, and for
  each the positions at which it stands there, in their order. -/
  incident : ∀ n, s.incidentTo n = s.toList.flatMap fun (id, e) => (e.positionsOf n).map (id, ·)
  nodup : ∀ n, (s.incidentTo n).Nodup
  /-- A node is next to a fact just if the fact is next to the node, at the same position. -/
  symmetric : ∀ id n p,
    (.node n, p) ∈ s.neighbors (.edge id) ↔ (.edge id, p) ∈ s.neighbors (.node n)
  /-- A fact that is new is added, and one that is not changes nothing. -/
  new : ∀ id e, id ∉ added.map Prod.fst → (s.add id e).1 = true
  again : ∀ id e, id ∈ added.map Prod.fst → s.add id e = (false, s)

/-! ### Adding facts -/

theorem addAll_concat (facts : List (EdgeId × Edge)) (id : EdgeId) (e : Edge) :
    addAll (facts ++ [(id, e)]) = ((addAll facts).add id e).2 := by
  simp [addAll]

theorem indexed_addAll (facts : List (EdgeId × Edge)) : (addAll facts).Indexed := by
  induction facts using List.reverseRecOn with
  | nil => exact .empty
  | append_singleton facts x ih =>
    rw [addAll_concat]
    exact ih.add x.1 x.2

theorem edge?_addAll (facts : List (EdgeId × Edge)) (id : EdgeId) :
    (addAll facts).edge? id = facts.lookup id := by
  induction facts using List.reverseRecOn with
  | nil => simp [addAll, edge?, FactBase.empty]
  | append_singleton facts x ih =>
    obtain ⟨d, e⟩ := x
    rw [addAll_concat, List.lookup_append, ← ih]
    cases new : (addAll facts).contains d with
    | true =>
      rw [add_of_contains new]
      obtain ⟨e', found⟩ := contains_iff.mp new
      by_cases same : id = d
      · rw [same, found, Option.some_or]
      · simp [List.lookup_cons, beq_false_of_ne same]
    | false =>
      rw [edge?_add new]
      have absent := contains_eq_false_iff.mp new
      by_cases same : id = d
      · simp [same, absent]
      · simp [List.lookup_cons, beq_false_of_ne same, same]

theorem contains_addAll_iff {facts : List (EdgeId × Edge)} :
    (addAll facts).contains id = true ↔ id ∈ facts.map Prod.fst := by
  rw [contains_iff, edge?_addAll, ← Option.isSome_iff_exists, List.lookup_isSome_iff]
  simp only [beq_iff_eq, List.mem_map, eq_comm (a := id)]

theorem order_addAll (facts : List (EdgeId × Edge)) :
    (addAll facts).order = (facts.map Prod.fst).eraseDups := by
  induction facts using List.reverseRecOn with
  | nil => rfl
  | append_singleton facts x ih =>
    rw [addAll_concat, List.map_append, List.eraseDups_append, ← ih]
    have known : (addAll facts).contains x.1 = true ↔ x.1 ∈ facts.map Prod.fst :=
      contains_addAll_iff
    cases new : (addAll facts).contains x.1 with
    | true => simp [add_of_contains new, List.removeAll, known.mp new]
    | false =>
      have fresh : x.1 ∉ facts.map Prod.fst := fun mem => by simp [known.mpr mem] at new
      rw [order_add new]
      simp [List.removeAll, fresh, List.eraseDups_cons]

/-- A new fact comes after the committed ones. -/
theorem Indexed.toList_add (indexed : s.Indexed) (new : s.contains id = false) (e : Edge) :
    (s.add id e).2.toList = s.toList ++ [(id, e)] := by
  have fresh := indexed.not_mem_order new
  rw [toList, order_add new, List.filterMap_append, toList]
  congr 1
  · refine List.filterMap_congr fun d mem => ?_
    have other : d ≠ id := fun same => fresh (same ▸ mem)
    rw [edge?_add new, if_neg other]
  · simp [edge?_add new]

theorem edge?_of_mem_toList {x : EdgeId × Edge} (mem : x ∈ s.toList) :
    s.edge? x.1 = some x.2 := by
  obtain ⟨id, _, same⟩ := List.mem_filterMap.mp mem
  obtain ⟨e, found, rfl⟩ := Option.map_eq_some_iff.mp same
  exact found

theorem incidentTo_addAll (facts : List (EdgeId × Edge)) (n : NodeId) :
    (addAll facts).incidentTo n =
      (addAll facts).toList.flatMap fun (id, e) => (e.positionsOf n).map (id, ·) := by
  induction facts using List.reverseRecOn with
  | nil => simp [addAll, incidentTo, toList, FactBase.empty]
  | append_singleton facts x ih =>
    obtain ⟨id, e⟩ := x
    rw [addAll_concat]
    cases new : (addAll facts).contains id with
    | true => rw [add_of_contains new, ih]
    | false =>
      rw [incidentTo_add new, (indexed_addAll facts).toList_add new, List.flatMap_append, ← ih,
        List.flatMap_singleton]
      simp only [← e.map_snd_filter_endpoints, List.map_map, Function.comp_def]

theorem Indexed.mem_neighbors_comm (indexed : s.Indexed) {n : NodeId} {p : Position} :
    (.node n, p) ∈ s.neighbors (.edge id) ↔ (.edge id, p) ∈ s.neighbors (.node n) := by
  rw [indexed.mem_neighbors_node]
  cases found : s.edge? id with
  | none =>
    simp only [neighbors, found, List.not_mem_nil, false_iff]
    rintro ⟨d, e, same, found', _⟩
    cases same
    simp [found] at found'
  | some e =>
    rw [mem_neighbors_edge found]
    constructor
    · rintro ⟨m, same, at_⟩
      cases same
      exact ⟨id, e, rfl, found, at_⟩
    · rintro ⟨d, e', same, found', at_⟩
      cases same
      cases found.symm.trans found'
      exact ⟨n, rfl, at_⟩

theorem mirrors_addAll (facts : List (EdgeId × Edge)) : (addAll facts).Mirrors facts where
  order := order_addAll facts
  once := (indexed_addAll facts).nodupOrder
  committed id := ((indexed_addAll facts).order id).trans contains_iff.symm
  content := edge?_addAll facts
  incident := incidentTo_addAll facts
  nodup := (indexed_addAll facts).nodup
  symmetric _ _ _ := (indexed_addAll facts).mem_neighbors_comm
  new id e fresh := by
    rw [fst_add, Bool.not_eq_true', Bool.eq_false_iff]
    exact fun known => fresh (contains_addAll_iff.mp known)
  again id e known := add_of_contains (contains_addAll_iff.mpr known)

/-- Adding the committed facts in order makes the same fact base again. -/
theorem addAll_toList (facts : List (EdgeId × Edge)) :
    addAll (addAll facts).toList = addAll facts := by
  induction facts using List.reverseRecOn with
  | nil => rfl
  | append_singleton facts x ih =>
    obtain ⟨id, e⟩ := x
    rw [addAll_concat]
    cases new : (addAll facts).contains id with
    | true => rw [add_of_contains new, ih]
    | false => rw [(indexed_addAll facts).toList_add new, addAll_concat, ih]

/-! ### Dropping the temporary facts -/

theorem lasting_addAll {facts : List (EdgeId × Edge)}
    (touches : ∀ x ∈ facts, x.1.isSchema = true → Graph.Lasting x.2) :
    (addAll facts).lasting = addAll (facts.filter fun x => x.1.isSchema) := by
  induction facts using List.reverseRecOn with
  | nil =>
    exact eq_of_parts (ExtTreeMap.ext_getElem? fun {n} => by simp [addAll, lasting, FactBase.empty])
      (ExtTreeMap.ext_getElem? fun {d} => by simp [addAll, lasting, FactBase.empty]) rfl
  | append_singleton facts x ih =>
    obtain ⟨id, e⟩ := x
    have ih := ih fun x mem => touches x (List.mem_append_left _ mem)
    rw [addAll_concat, List.filter_append]
    cases isSchema : id.isSchema with
    | false =>
      rw [lasting_add isSchema, ih]
      simp [isSchema]
    | true =>
      have touched := touches (id, e) (List.mem_append_right _ (List.mem_singleton_self _)) isSchema
      rw [lasting_add_of_schema isSchema touched, ih, ← addAll_concat]
      simp [isSchema]

/-- Dropping the temporary facts leaves what adding the schema facts alone comes to. -/
theorem clearTemporary_addAll {facts : List (EdgeId × Edge)}
    (touches : ∀ x ∈ facts, x.1.isSchema = true → Graph.Lasting x.2) :
    (addAll facts).clearTemporary = addAll (facts.filter fun x => x.1.isSchema) := by
  by_cases all : (addAll facts).order.all EdgeId.isSchema = true
  · have kept : facts.filter (fun x => x.1.isSchema) = facts := by
      refine List.filter_eq_self.mpr fun x mem => List.all_eq_true.mp all x.1 ?_
      rw [order_addAll, List.mem_eraseDups]
      exact List.mem_map_of_mem mem
    rw [clearTemporary, if_pos all, kept]
  · rw [clearTemporary, if_neg all]
    exact lasting_addAll touches

/-! ### Changes -/

theorem standing_append (changes : List Change) (change : Change) :
    standing (changes ++ [change]) = (standing changes).filter (fun x => !change.drops x.1) ++
      match change with
      | .add id e => [(id, e)]
      | _ => [] := by
  induction changes with
  | nil => cases change <;> simp [standing]
  | cons first rest ih =>
    cases first with
    | add id e =>
      by_cases dropped : rest.any (·.drops id) = true
      · simp [standing, dropped, ih]
      · by_cases now : change.drops id = true <;> simp [standing, dropped, ih, now]
    | clearTemporary => simpa [standing] using ih
    | clear => simpa [standing] using ih

theorem mem_of_mem_standing {changes : List Change} (mem : (id, e) ∈ standing changes) :
    .add id e ∈ changes := by
  induction changes with
  | nil => cases mem
  | cons first rest ih =>
    cases first with
    | add d x =>
      rw [standing] at mem
      split at mem
      · exact List.mem_cons_of_mem _ (ih mem)
      · rcases List.mem_cons.mp mem with same | later
        · cases same
          exact List.mem_cons_self
        · exact List.mem_cons_of_mem _ (ih later)
    | clearTemporary => exact List.mem_cons_of_mem _ (ih mem)
    | clear => exact List.mem_cons_of_mem _ (ih mem)

/-- Changes come to the same as adding the facts that stand after them, if schema facts touch schema
nodes only. -/
theorem applyAll_eq {changes : List Change}
    (touches : ∀ id e, .add id e ∈ changes → id.isSchema = true → Graph.Lasting e) :
    applyAll changes = addAll (standing changes) := by
  induction changes using List.reverseRecOn with
  | nil => rfl
  | append_singleton changes change ih =>
    have before : ∀ id e, .add id e ∈ changes → id.isSchema = true → Graph.Lasting e :=
      fun id e mem => touches id e (List.mem_append_left _ mem)
    rw [standing_append]
    have made : applyAll (changes ++ [change]) = (applyAll changes).apply change := by
      simp [applyAll]
    rw [made, ih before]
    cases change with
    | add id e => simpa [apply, Change.drops] using (addAll_concat (standing changes) id e).symm
    | clearTemporary =>
      rw [apply, clearTemporary_addAll fun x mem => before _ _ (mem_of_mem_standing mem)]
      simp [Change.drops]
    | clear => simp [apply, clear, Change.drops, addAll]

/-- After any sequence of changes in which the schema facts touch schema nodes only, the fact base
is as the facts say that were added and not dropped since, and dropping the temporary facts leaves
what adding its schema facts in their order comes to. -/
theorem adjacency_applyAll (changes : List Change)
    (touches : ∀ id e, .add id e ∈ changes → id.isSchema = true → Graph.Lasting e) :
    (applyAll changes).Mirrors (standing changes) ∧
      (applyAll changes).clearTemporary =
        addAll ((applyAll changes).toList.filter fun x => x.1.isSchema) := by
  rw [applyAll_eq touches]
  refine ⟨mirrors_addAll _, ?_⟩
  have touches : ∀ x ∈ (addAll (standing changes)).toList, x.1.isSchema = true →
      Graph.Lasting x.2 := by
    intro x mem
    have found := edge?_of_mem_toList mem
    rw [edge?_addAll] at found
    obtain ⟨earlier, later, split, _⟩ := List.lookup_eq_some_iff.mp found
    exact touches x.1 x.2 (mem_of_mem_standing (split ▸ List.mem_append_right _ List.mem_cons_self))
  rw [← clearTemporary_addAll touches, addAll_toList]

/-- A link of a point to itself that belongs to the schema, two temporary links under one number, of
which the second is ignored, and a third under that number in the next document. -/
def relinked : List Change :=
  let point : NodeId := ⟨.schema, 0⟩
  let other : NodeId := ⟨.temporary, 0⟩
  [.add ⟨.temporary, 0⟩ ⟨⟨0⟩, ⟨.temporary, 1⟩, [other, point]⟩,
    .add ⟨.schema, 0⟩ ⟨⟨0⟩, ⟨.schema, 1⟩, [point, point]⟩,
    .add ⟨.temporary, 0⟩ ⟨⟨0⟩, ⟨.temporary, 2⟩, [other, other]⟩,
    .clearTemporary,
    .add ⟨.temporary, 0⟩ ⟨⟨0⟩, ⟨.temporary, 1⟩, [point, other]⟩,
    .add ⟨.schema, 0⟩ ⟨⟨0⟩, ⟨.schema, 1⟩, [point, point]⟩]

/-- The point lists its places in the link to itself before its place in the later link. -/
theorem adjacency_relinked :
    (∀ id e, .add id e ∈ relinked → id.isSchema = true → Graph.Lasting e) ∧
      (applyAll relinked).Mirrors (standing relinked) ∧
      (applyAll relinked).incidentTo ⟨.schema, 0⟩ =
        [(⟨.schema, 0⟩, .tail 0), (⟨.schema, 0⟩, .tail 1), (⟨.temporary, 0⟩, .tail 0)] := by
  have touches : ∀ id e, .add id e ∈ relinked → id.isSchema = true → Graph.Lasting e := by
    intro id e mem isSchema
    simp only [relinked, List.mem_cons, Change.add.injEq, reduceCtorEq, List.not_mem_nil, or_false,
      false_or] at mem
    rcases mem with ⟨rfl, rfl⟩ | ⟨rfl, rfl⟩ | ⟨rfl, rfl⟩ | ⟨rfl, rfl⟩ | ⟨rfl, rfl⟩ <;>
      simp [EdgeId.isSchema, NodeId.isSchema, Graph.Lasting] at isSchema ⊢
  exact ⟨touches, (adjacency_applyAll relinked touches).1, by decide +kernel⟩

end FactBase

end ScoredChaining
