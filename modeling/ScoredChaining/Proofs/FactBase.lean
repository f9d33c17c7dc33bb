import Mathlib.Data.List.Nodup
import ScoredChaining.FactBase
import ScoredChaining.Proofs.Graph.Facts

/-!
The index of the committed facts.

* `FactBase.Indexed`: a node lists exactly the positions that it has in committed facts, each once,
  and the order lists every committed fact once.
* `FactBase.Indexed.add`, `FactBase.Indexed.clearTemporary`: committing a fact and forgetting a
  document keep this.
* `FactBase.Indexed.mem_neighbors_node`, `FactBase.Indexed.nodup_neighbors`: what a vertex is joined
  to.
-/

namespace ScoredChaining

open Std

namespace Edge

theorem nodup_positions (i : Nat) (ns : List NodeId) :
    ((placedFrom i ns).map Prod.snd).Nodup ∧
      ∀ p ∈ (placedFrom i ns).map Prod.snd, ∃ k, p = .tail (i + k) := by
  induction ns generalizing i with
  | nil => simp [placedFrom]
  | cons n rest ih =>
    obtain ⟨nodup, later⟩ := ih (i + 1)
    simp only [placedFrom, List.map_cons, List.nodup_cons, List.mem_cons]
    refine ⟨⟨fun again => ?_, nodup⟩, ?_⟩
    · obtain ⟨k, same⟩ := later _ again
      simp only [Position.tail.injEq] at same
      omega
    · rintro p (rfl | mem)
      · exact ⟨0, rfl⟩
      · obtain ⟨k, rfl⟩ := later p mem
        exact ⟨k + 1, by congr 1; omega⟩

/-- Every position of a fact is listed once. -/
theorem nodup_endpoints (e : Edge) : e.endpoints.Nodup := by
  obtain ⟨nodup, tails⟩ := nodup_positions 0 e.tail
  refine List.Nodup.of_map Prod.snd ?_
  simp only [endpoints, List.map_cons, List.nodup_cons]
  refine ⟨fun mem => ?_, nodup⟩
  obtain ⟨k, impossible⟩ := tails _ mem
  cases impossible

end Edge

/-- A schema fact touches schema nodes only. -/
theorem Graph.Lasting.isSchema {e : Edge} {n : NodeId} {p : Position} (lasting : Graph.Lasting e)
    (at_ : e.nodeAt? p = some n) : n.isSchema = true := by
  cases p with
  | head =>
    obtain rfl : e.head = n := by simpa [Edge.nodeAt?] using at_
    exact lasting.1
  | tail i => exact lasting.2 n (List.mem_of_getElem? at_)

namespace FactBase

variable {s : FactBase} {id : EdgeId} {e : Edge} {n : NodeId} {p : Position}

/-- The facts that a node lists are the committed facts that it is in, and the order lists the
committed facts. Neither list has repetitions. -/
structure Indexed (s : FactBase) : Prop where
  incident : ∀ n id p,
    (id, p) ∈ s.incidentTo n ↔ ∃ e, s.edge? id = some e ∧ e.nodeAt? p = some n
  nodup : ∀ n, (s.incidentTo n).Nodup
  order : ∀ id, id ∈ s.order ↔ ∃ e, s.edge? id = some e
  nodupOrder : s.order.Nodup

theorem contains_iff : s.contains id = true ↔ ∃ e, s.edge? id = some e := by
  rw [contains, ExtTreeMap.contains_eq_isSome_getElem?, Option.isSome_iff_exists]
  rfl

theorem contains_eq_false_iff : s.contains id = false ↔ s.edge? id = none := by
  rw [contains, ExtTreeMap.contains_eq_isSome_getElem?, Option.isSome_eq_false_iff,
    Option.isNone_iff_eq_none]
  rfl

theorem Indexed.not_mem_order (indexed : s.Indexed) (new : s.contains id = false) :
    id ∉ s.order := by
  simp [indexed.order, contains_eq_false_iff.mp new]

/-- A committed fact is not committed again. -/
theorem add_of_contains (committed : s.contains id = true) : s.add id e = (false, s) := by
  rw [add, if_pos committed]

/-- The answer says whether the fact is new. -/
theorem fst_add : (s.add id e).1 = !s.contains id := by
  unfold add
  cases s.contains id <;> rfl

/-! ### Committing -/

theorem edge?_add (new : s.contains id = false) (d : EdgeId) :
    (s.add id e).2.edge? d = if d = id then some e else s.edge? d := by
  simp only [add, new, Bool.false_eq_true, if_false, edge?, ExtTreeMap.getElem?_insert,
    EdgeId.compare_eq_iff, eq_comm (a := id)]

theorem order_add (new : s.contains id = false) : (s.add id e).2.order = s.order ++ [id] := by
  simp [add, new]

/-- The facts of the first are facts of the second, which were committed before the others. -/
structure Extends (s s' : FactBase) : Prop where
  order : s.order <+: s'.order
  edges : ∀ id e, s.edge? id = some e → s'.edge? id = some e

theorem Extends.refl (s : FactBase) : Extends s s :=
  ⟨List.prefix_rfl, fun _ _ found => found⟩

theorem Extends.trans {s s' s'' : FactBase} (first : Extends s s') (second : Extends s' s'') :
    Extends s s'' :=
  ⟨first.order.trans second.order, fun id e found => second.edges id e (first.edges id e found)⟩

theorem extends_add (s : FactBase) (id : EdgeId) (e : Edge) : Extends s (s.add id e).2 := by
  cases new : s.contains id with
  | true =>
    rw [add_of_contains new]
    exact .refl s
  | false =>
    refine ⟨?_, fun d x found => ?_⟩
    · rw [order_add new]
      exact List.prefix_append _ _
    · have other : d ≠ id := by
        rintro rfl
        rw [contains_eq_false_iff.mp new] at found
        cases found
      rw [edge?_add new, if_neg other]
      exact found

theorem contains_add_iff {d : EdgeId} :
    (s.add id e).2.contains d = true ↔ d = id ∨ s.contains d = true := by
  cases new : s.contains id with
  | true =>
    rw [add_of_contains new]
    constructor
    · exact .inr
    · rintro (rfl | known)
      · exact new
      · exact known
  | false =>
    rw [contains_iff, contains_iff, edge?_add new]
    by_cases here : d = id <;> simp [here]

/-- The links of a fact are added after the others, in the order of its positions. -/
theorem getElem?_foldl_link (id : EdgeId) (endpoints : List (NodeId × Position)) (n : NodeId)
    (incident : ExtTreeMap NodeId (List (EdgeId × Position))) :
    ((endpoints.foldl (fun incident endpoint => link incident id endpoint) incident)[n]?).getD [] =
      (incident[n]?).getD [] ++
        (endpoints.filter fun x => x.1 = n).map fun x => (id, x.2) := by
  induction endpoints generalizing incident with
  | nil => simp
  | cons x rest ih =>
    rw [List.foldl_cons, ih, link, ExtTreeMap.getElem?_insert]
    by_cases here : x.1 = n
    · simp [here]
    · simp [here]

theorem incident_add (new : s.contains id = false) : (s.add id e).2.incident =
    e.endpoints.foldl (fun incident endpoint => link incident id endpoint) s.incident := by
  simp [add, new]

theorem incidentTo_add (new : s.contains id = false) (n : NodeId) :
    (s.add id e).2.incidentTo n =
      s.incidentTo n ++ (e.endpoints.filter fun x => x.1 = n).map fun x => (id, x.2) := by
  rw [incidentTo, incident_add new]
  exact getElem?_foldl_link id e.endpoints n s.incident

namespace Indexed

theorem empty : Indexed FactBase.empty :=
  ⟨by simp [incidentTo, edge?, FactBase.empty], by simp [incidentTo, FactBase.empty],
    by simp [edge?, FactBase.empty], by simp [FactBase.empty]⟩

/-- A fact that a node lists is committed. -/
theorem committed_of_incident (indexed : s.Indexed) (mem : (id, p) ∈ s.incidentTo n) :
    ∃ e, s.edge? id = some e := by
  obtain ⟨e, found, _⟩ := (indexed.incident n id p).mp mem
  exact ⟨e, found⟩

theorem add (indexed : s.Indexed) (id : EdgeId) (e : Edge) : (s.add id e).2.Indexed := by
  cases new : s.contains id with
  | true => rwa [add_of_contains new]
  | false =>
    have absent : s.edge? id = none := contains_eq_false_iff.mp new
    have fresh : ∀ n p, (id, p) ∉ s.incidentTo n := by
      intro n p mem
      obtain ⟨_, found⟩ := indexed.committed_of_incident mem
      simp [absent] at found
    have freshOrder := indexed.not_mem_order new
    refine ⟨fun n d p => ?_, fun n => ?_, fun d => ?_, ?_⟩
    · rw [incidentTo_add new, List.mem_append, edge?_add new]
      by_cases same : d = id
      · subst same
        simp [fresh, Edge.mem_endpoints]
      · simp [same, indexed.incident, Ne.symm same]
    · rw [incidentTo_add new]
      refine List.nodup_append.mpr ⟨indexed.nodup n, ?_, ?_⟩
      · have listed := e.nodup_endpoints.filter fun x => x.1 = n
        rw [List.nodup_map_iff_inj_on listed]
        intro x inX y inY same
        have atX := (List.mem_filter.mp inX).2
        have atY := (List.mem_filter.mp inY).2
        simp only [decide_eq_true_eq] at atX atY
        exact Prod.ext (atX.trans atY.symm) (Prod.mk.inj same).2
      · rintro ⟨d, p⟩ old x added rfl
        obtain ⟨y, _, same⟩ := List.mem_map.mp added
        obtain ⟨rfl, rfl⟩ := Prod.mk.inj same
        exact fresh n _ old
    · rw [order_add new, List.mem_append, edge?_add new]
      by_cases same : d = id
      · simp [same]
      · simp [same, indexed.order]
    · rw [order_add new]
      refine List.nodup_append.mpr ⟨indexed.nodupOrder, by simp, ?_⟩
      rintro d old c last rfl
      obtain rfl := List.mem_singleton.mp last
      exact freshOrder old

end Indexed

/-! ### Neighbours -/

theorem mem_neighbors_edge (found : s.edge? id = some e) {v : Vertex} :
    (v, p) ∈ s.neighbors (.edge id) ↔ ∃ n, v = .node n ∧ e.nodeAt? p = some n := by
  simp only [neighbors, found, List.mem_map, Prod.mk.injEq, Prod.exists]
  constructor
  · rintro ⟨n, q, mem, rfl, rfl⟩
    exact ⟨n, rfl, Edge.mem_endpoints.mp mem⟩
  · rintro ⟨n, rfl, at_⟩
    exact ⟨n, p, Edge.mem_endpoints.mpr at_, rfl, rfl⟩

theorem Indexed.mem_neighbors_node (indexed : s.Indexed) {v : Vertex} :
    (v, p) ∈ s.neighbors (.node n) ↔
      ∃ id e, v = .edge id ∧ s.edge? id = some e ∧ e.nodeAt? p = some n := by
  simp only [neighbors, List.mem_map, Prod.mk.injEq, Prod.exists]
  constructor
  · rintro ⟨id, q, mem, rfl, rfl⟩
    obtain ⟨e, found, at_⟩ := (indexed.incident n id q).mp mem
    exact ⟨id, e, rfl, found, at_⟩
  · rintro ⟨id, e, rfl, found, at_⟩
    exact ⟨id, p, (indexed.incident n id p).mpr ⟨e, found, at_⟩, rfl, rfl⟩

/-- No vertex is joined to another twice at one position. -/
theorem Indexed.nodup_neighbors (indexed : s.Indexed) (v : Vertex) : (s.neighbors v).Nodup := by
  cases v with
  | node n =>
    refine (indexed.nodup n).map ?_
    rintro ⟨d, p⟩ ⟨c, q⟩ same
    simpa using same
  | edge id =>
    simp only [neighbors]
    split
    · rename_i e _
      refine e.nodup_endpoints.map ?_
      rintro ⟨m, p⟩ ⟨n, q⟩ same
      simpa using same
    · exact List.nodup_nil

/-! ### Forgetting -/

theorem edge?_clearTemporary (indexed : s.Indexed) :
    s.clearTemporary.edge? id = some e ↔ s.edge? id = some e ∧ id.isSchema = true := by
  unfold clearTemporary
  split
  · rename_i lasting
    refine ⟨fun found => ⟨found, ?_⟩, And.left⟩
    exact List.all_eq_true.mp lasting id ((indexed.order id).mpr ⟨e, found⟩)
  · simp only [edge?, ExtTreeMap.getElem?_filter']
    cases s.edges[id]? <;> simp [Option.filter, and_comm]

/-- A node keeps its links to schema facts, if these only touch schema nodes. -/
theorem Indexed.clearTemporary (indexed : s.Indexed)
    (lasting : ∀ id e, s.edge? id = some e → id.isSchema = true → Graph.Lasting e) :
    s.clearTemporary.Indexed := by
  by_cases all : s.order.all EdgeId.isSchema = true
  · rwa [FactBase.clearTemporary, if_pos all]
  have links : ∀ n, s.clearTemporary.incidentTo n =
      (s.incidentTo n).filter fun x => n.isSchema && x.1.isSchema := by
    intro n
    simp only [FactBase.clearTemporary, if_neg all, incidentTo, ExtTreeMap.getElem?_filterMap',
      schemaLinks]
    cases s.incident[n]? with
    | none => rfl
    | some listed =>
      cases n.isSchema with
      | false => simp
      | true =>
        simp only [Option.bind_some, Bool.true_and, Option.getD_some]
        cases kept : listed.filter fun x => x.1.isSchema <;> simp
  refine ⟨fun n id p => ?_, fun n => links n ▸ (indexed.nodup n).filter _, fun id => ?_, ?_⟩
  · rw [links, List.mem_filter, indexed.incident]
    constructor
    · rintro ⟨⟨e, found, at_⟩, kept⟩
      exact ⟨e, (edge?_clearTemporary indexed).mpr ⟨found, (Bool.and_eq_true_iff.mp kept).2⟩, at_⟩
    · rintro ⟨e, found, at_⟩
      obtain ⟨found, isSchema⟩ := (edge?_clearTemporary indexed).mp found
      have touched := (lasting id e found isSchema).isSchema at_
      exact ⟨⟨e, found, at_⟩, by simp [touched, isSchema]⟩
  · have order : s.clearTemporary.order = s.order.filter EdgeId.isSchema := by
      rw [FactBase.clearTemporary, if_neg all]
    simp only [order, List.mem_filter, indexed.order, edge?_clearTemporary indexed,
      exists_and_right]
  · simp only [FactBase.clearTemporary, if_neg all]
    exact indexed.nodupOrder.filter _

/-- The facts without the temporary ones. A node that touches no schema fact has no list. -/
def lasting (s : FactBase) : FactBase where
  incident := s.incident.filterMap schemaLinks
  edges := s.edges.filter fun id _ => id.isSchema
  order := s.order.filter EdgeId.isSchema

theorem getElem?_incident_lasting (s : FactBase) (n : NodeId) :
    s.lasting.incident[n]? = schemaLinks n (s.incidentTo n) := by
  simp only [lasting, incidentTo, ExtTreeMap.getElem?_filterMap']
  cases s.incident[n]? with
  | none => simp [schemaLinks]
  | some links => rfl

theorem eq_of_parts {s s' : FactBase} (incident : s.incident = s'.incident)
    (edges : s.edges = s'.edges) (order : s.order = s'.order) : s = s' := by
  cases s
  cases s'
  simp_all

/-- Nothing remains of a temporary fact. -/
theorem lasting_add (temporary : id.isSchema = false) : (s.add id e).2.lasting = s.lasting := by
  cases new : s.contains id with
  | true => rw [add_of_contains new]
  | false =>
    refine eq_of_parts (ExtTreeMap.ext_getElem? fun {n} => ?_)
      (ExtTreeMap.ext_getElem? fun {d} => ?_) ?_
    · have kept : ((s.add id e).2.incidentTo n).filter (fun x => x.1.isSchema) =
          (s.incidentTo n).filter fun x => x.1.isSchema := by
        simp [incidentTo_add new, temporary]
      simp only [getElem?_incident_lasting, schemaLinks, kept]
    · have found := edge?_add (e := e) new d
      simp only [edge?] at found
      simp only [lasting, ExtTreeMap.getElem?_filter', found]
      split
      · rename_i same
        subst same
        have absent := contains_eq_false_iff.mp new
        simp only [edge?] at absent
        simp [absent, temporary]
      · rfl
    · simp [lasting, order_add new, temporary]

/-- A link from a schema node to a schema fact remains, after the links that remain. -/
theorem filterMap_link (incident : ExtTreeMap NodeId (List (EdgeId × Position)))
    (isSchema : id.isSchema = true) (touched : n.isSchema = true) :
    (link incident id (n, p)).filterMap schemaLinks =
      link (incident.filterMap schemaLinks) id (n, p) := by
  have kept : ∀ links : List (EdgeId × Position),
      (schemaLinks n links).getD [] = links.filter fun x => x.1.isSchema := by
    intro links
    simp only [schemaLinks, touched, Bool.true_and]
    cases links.filter fun x => x.1.isSchema <;> rfl
  apply ExtTreeMap.ext_getElem?
  intro m
  simp only [link, ExtTreeMap.getElem?_filterMap', ExtTreeMap.getElem?_insert]
  split
  · rename_i same
    obtain rfl := NodeId.compare_eq_iff.mp same
    cases incident[n]? with
    | none => simp [schemaLinks, isSchema, touched]
    | some links =>
      simp only [Option.bind_some, Option.getD_some, kept]
      simp [schemaLinks, isSchema, touched]
  · rfl

theorem contains_lasting (isSchema : id.isSchema = true) :
    s.lasting.contains id = s.contains id := by
  simp only [contains, lasting, ExtTreeMap.contains_eq_isSome_getElem?,
    ExtTreeMap.getElem?_filter']
  cases s.edges[id]? <;> simp [Option.filter, isSchema]

/-- A schema fact that touches schema nodes only remains, after the facts that remain. -/
theorem lasting_add_of_schema (isSchema : id.isSchema = true) (touches : Graph.Lasting e) :
    (s.add id e).2.lasting = (s.lasting.add id e).2 := by
  have known := contains_lasting (s := s) isSchema
  cases new : s.contains id with
  | true => rw [add_of_contains new, add_of_contains (known.trans new)]
  | false =>
    have touched : ∀ x ∈ e.endpoints, x.1.isSchema = true := fun x mem =>
      touches.isSchema (Edge.mem_endpoints.mp mem)
    refine eq_of_parts ?_ (ExtTreeMap.ext_getElem? fun {d} => ?_) ?_
    · rw [incident_add (known.trans new), lasting, incident_add new, lasting]
      generalize s.incident = incident
      generalize e.endpoints = endpoints at touched
      induction endpoints generalizing incident with
      | nil => rfl
      | cons x rest ih =>
        obtain ⟨touchedFirst, touchedRest⟩ := List.forall_mem_cons.mp touched
        rw [List.foldl_cons, List.foldl_cons, ih _ touchedRest,
          filterMap_link incident isSchema touchedFirst]
    · have found := edge?_add (e := e) new d
      have found' := edge?_add (e := e) (known.trans new) d
      simp only [edge?] at found found'
      rw [found']
      simp only [lasting, ExtTreeMap.getElem?_filter', found]
      split
      · rename_i same
        simp [same, isSchema]
      · rfl
    · rw [order_add (known.trans new)]
      simp [lasting, order_add new, isSchema]

/-- Nothing is lost by a schema fact that touches schema nodes only. -/
theorem lasting_add_schema (kept : s.lasting = s) (isSchema : id.isSchema = true)
    (touches : Graph.Lasting e) : (s.add id e).2.lasting = (s.add id e).2 := by
  rw [lasting_add_of_schema isSchema touches, kept]

/-- The second has what is in the first, and temporary facts that were committed later. -/
structure Overlays (s s' : FactBase) : Prop where
  extends_ : Extends s s'
  lasting : s'.lasting = s.lasting
  /-- If it has no temporary fact, it is the first. -/
  same : s'.order.all EdgeId.isSchema = true → s' = s

namespace Overlays

variable {s' s'' : FactBase}

theorem refl (s : FactBase) : Overlays s s :=
  ⟨.refl s, rfl, fun _ => rfl⟩

theorem add (overlays : Overlays s s') (temporary : id.isSchema = false) (e : Edge) :
    Overlays s (s'.add id e).2 := by
  refine ⟨overlays.extends_.trans (extends_add s' id e),
    (lasting_add temporary).trans overlays.lasting, ?_⟩
  intro all
  cases new : s'.contains id with
  | true =>
    rw [add_of_contains new] at all ⊢
    exact overlays.same all
  | false => simp [order_add new, temporary] at all

/-- The first is what is left of the second without its temporary facts. -/
theorem clearTemporary_eq (overlays : Overlays s s') (kept : s.lasting = s) :
    s'.clearTemporary = s := by
  unfold clearTemporary
  split
  · rename_i all
    exact overlays.same all
  · exact overlays.lasting.trans kept

end Overlays

end FactBase

end ScoredChaining
