import Mathlib.Data.List.Nodup
import Mathlib.Data.List.Perm.Subperm
import ScoredChaining.Rule.Compiled

/-!
The tour of a join graph, as a relation.

`JoinGraph.Sweeps` says what it means to try the neighbours of a vertex one after the other; it has
no depth.

* `JoinGraph.tour_sweeps`: the tour sweeps the neighbours of its root, so its depth is enough.
* `JoinGraph.Sweeps.nodup`, `JoinGraph.Sweeps.entered_eq`: no vertex is entered twice.
* `Rule.termOrder_perm`: a path that meets as many facts as there are premises meets each premise.
-/

namespace ScoredChaining

namespace JoinGraph

variable {j : JoinGraph} {v w : JoinVertex} {ws entered entered' : List JoinVertex}
  {steps : List TourStep} {i k : Nat} {p : Position}

/-- The graph has the vertex. -/
def Has (j : JoinGraph) : JoinVertex → Prop
  | .premise i => i < j.premises.length
  | .join k => k < j.joins.length

/-- The vertices of the graph. -/
def vertices (j : JoinGraph) : List JoinVertex :=
  (List.range j.premises.length).map .premise ++ (List.range j.joins.length).map .join

theorem mem_vertices_iff : v ∈ j.vertices ↔ j.Has v := by
  cases v <;> simp [vertices, Has]

theorem length_vertices : j.vertices.length = j.size := by
  simp [vertices, size]

theorem placement?_eq_some_iff : j.placement? i k = some p ↔
    ∃ t name, j.premises[i]? = some t ∧ j.joins[k]? = some name ∧ t.positionOf? name = some p := by
  unfold placement?
  cases j.premises[i]? with
  | none => simp
  | some t =>
    cases j.joins[k]? with
    | none => simp
    | some name => simp

theorem bounds_of_placement? (placed : j.placement? i k = some p) :
    i < j.premises.length ∧ k < j.joins.length := by
  obtain ⟨t, name, isPremise, isJoin, _⟩ := placement?_eq_some_iff.mp placed
  exact ⟨(List.getElem?_eq_some_iff.mp isPremise).1, (List.getElem?_eq_some_iff.mp isJoin).1⟩

theorem mem_neighbors_premise :
    w ∈ j.neighbors (.premise i) ↔ ∃ k p, w = .join k ∧ j.placement? i k = some p := by
  simp only [neighbors, List.mem_reverse, List.mem_map, List.mem_filter, List.mem_range]
  constructor
  · rintro ⟨k, ⟨_, placed⟩, rfl⟩
    obtain ⟨p, placed⟩ := Option.isSome_iff_exists.mp placed
    exact ⟨k, p, rfl, placed⟩
  · rintro ⟨k, p, rfl, placed⟩
    exact ⟨k, ⟨(bounds_of_placement? placed).2, by rw [placed]; rfl⟩, rfl⟩

theorem mem_neighbors_join :
    w ∈ j.neighbors (.join k) ↔ ∃ i p, w = .premise i ∧ j.placement? i k = some p := by
  simp only [neighbors, List.mem_reverse, List.mem_map, List.mem_filter, List.mem_range]
  constructor
  · rintro ⟨i, ⟨_, placed⟩, rfl⟩
    obtain ⟨p, placed⟩ := Option.isSome_iff_exists.mp placed
    exact ⟨i, p, rfl, placed⟩
  · rintro ⟨i, p, rfl, placed⟩
    exact ⟨i, ⟨(bounds_of_placement? placed).1, by rw [placed]; rfl⟩, rfl⟩

theorem has_of_mem_neighbors (mem : w ∈ j.neighbors v) : j.Has w := by
  cases v with
  | premise i =>
    obtain ⟨k, p, rfl, placed⟩ := mem_neighbors_premise.mp mem
    exact (bounds_of_placement? placed).2
  | join k =>
    obtain ⟨i, p, rfl, placed⟩ := mem_neighbors_join.mp mem
    exact (bounds_of_placement? placed).1

/-! ### Sweeps -/

/-- Trying the vertices `ws` next to `v` in order, when those in `entered` have been entered: the
steps that this takes, and the vertices entered in the end, the latest first. -/
inductive Sweeps (j : JoinGraph) : JoinVertex → List JoinVertex → List JoinVertex →
    List TourStep → List JoinVertex → Prop where
  | nil {v : JoinVertex} {entered : List JoinVertex} : Sweeps j v [] entered [] entered
  | skip {v w : JoinVertex} {ws entered entered' : List JoinVertex} {steps : List TourStep} :
      w ∈ entered → Sweeps j v ws entered steps entered' →
      Sweeps j v (w :: ws) entered steps entered'
  | enter {v w : JoinVertex} {ws entered entered₁ entered' : List JoinVertex}
      {inner steps : List TourStep} : w ∈ j.neighbors v → w ∉ entered →
      Sweeps j w (j.neighbors w) (w :: entered) inner entered₁ →
      Sweeps j v ws entered₁ steps entered' →
      Sweeps j v (w :: ws) entered (.enter v w :: inner ++ .leave w :: steps) entered'

/-- The vertex that a step enters. -/
def entered? : TourStep → Option JoinVertex
  | .enter _ w => some w
  | .leave _ => none

namespace Sweeps

/-- The entered vertices are those of the steps on top of the earlier ones. -/
theorem entered_eq (sweeps : j.Sweeps v ws entered steps entered') :
    entered' = (steps.filterMap entered?).reverse ++ entered := by
  induction sweeps with
  | nil => rfl
  | skip _ _ ih => exact ih
  | enter _ _ _ _ inner outer => simp [outer, inner, entered?, List.filterMap_cons]

/-- No vertex is entered twice, and all belong to the graph. -/
theorem nodup (sweeps : j.Sweeps v ws entered steps entered') (nodup : entered.Nodup)
    (has : ∀ x ∈ entered, j.Has x) : entered'.Nodup ∧ ∀ x ∈ entered', j.Has x := by
  induction sweeps with
  | nil => exact ⟨nodup, has⟩
  | skip _ _ ih => exact ih nodup has
  | enter neighbor fresh _ _ inner outer =>
    have hasNew : ∀ x ∈ _ :: _, j.Has x := List.forall_mem_cons.mpr
      ⟨has_of_mem_neighbors neighbor, has⟩
    obtain ⟨nodup₁, has₁⟩ := inner (List.nodup_cons.mpr ⟨fresh, nodup⟩) hasNew
    exact outer nodup₁ has₁

theorem length_le (sweeps : j.Sweeps v ws entered steps entered') :
    entered.length ≤ entered'.length := by
  rw [sweeps.entered_eq]
  simp

/-- Every step that enters a vertex comes from a neighbour. -/
theorem neighbor_of_enter (sweeps : j.Sweeps v ws entered steps entered') {x y : JoinVertex}
    (mem : .enter x y ∈ steps) : y ∈ j.neighbors x := by
  induction sweeps with
  | nil => cases mem
  | skip _ _ ih => exact ih mem
  | enter neighbor _ _ _ inner outer =>
    simp only [List.cons_append, List.mem_cons, TourStep.enter.injEq, List.mem_append,
      reduceCtorEq, false_or] at mem
    rcases mem with ⟨rfl, rfl⟩ | mem | mem
    · exact neighbor
    · exact inner mem
    · exact outer mem

end Sweeps

/-- A list of distinct vertices is not longer than the graph is large. -/
theorem length_le_size (nodup : entered.Nodup) (has : ∀ x ∈ entered, j.Has x) :
    entered.length ≤ j.size := by
  rw [← length_vertices]
  exact (List.subperm_of_subset nodup fun x mem => mem_vertices_iff.mpr (has x mem)).length_le

/-- The neighbours that are tried after the steps `done`. -/
def sweepFrom (j : JoinGraph) (depth : Nat) (v : JoinVertex) (ws : List JoinVertex)
    (start : List TourStep × List JoinVertex) : List TourStep × List JoinVertex :=
  ws.foldl (fun (steps, entered) w =>
    if w ∈ entered then (steps, entered)
    else
      let (inner, entered) := j.explore depth w (w :: entered)
      (steps ++ .enter v w :: inner, entered)) start

theorem explore_succ (depth : Nat) (v : JoinVertex) (entered : List JoinVertex) :
    j.explore (depth + 1) v entered =
      ((j.sweepFrom depth v (j.neighbors v) ([], entered)).1 ++ [.leave v],
        (j.sweepFrom depth v (j.neighbors v) ([], entered)).2) := rfl

/-- Exploring with a depth that the unentered vertices cannot exceed sweeps the neighbours. -/
theorem explore_sweeps (depth : Nat) (v : JoinVertex) (nodup : entered.Nodup)
    (has : ∀ x ∈ entered, j.Has x) (deep : j.size < depth + entered.length) :
    ∃ steps entered', j.explore depth v entered = (steps ++ [.leave v], entered') ∧
      j.Sweeps v (j.neighbors v) entered steps entered' := by
  induction depth generalizing v entered with
  | zero =>
    have := length_le_size nodup has
    omega
  | succ depth ih =>
    have sweep : ∀ ws done entered, (∀ w ∈ ws, w ∈ j.neighbors v) → entered.Nodup →
        (∀ x ∈ entered, j.Has x) → j.size < depth + 1 + entered.length →
        ∃ steps entered', j.sweepFrom depth v ws (done, entered) = (done ++ steps, entered') ∧
          j.Sweeps v ws entered steps entered' := by
      intro ws
      induction ws with
      | nil => exact fun done entered _ _ _ _ => ⟨[], entered, by simp [sweepFrom], .nil⟩
      | cons w ws ihRest =>
        intro done entered near nodup has deep
        obtain ⟨neighbor, nearRest⟩ := List.forall_mem_cons.mp near
        by_cases old : w ∈ entered
        · obtain ⟨steps, entered', same, sweeps⟩ := ihRest done entered nearRest nodup has deep
          refine ⟨steps, entered', ?_, .skip old sweeps⟩
          rw [← same]
          simp [sweepFrom, old]
        · have nodupNew := List.nodup_cons.mpr ⟨old, nodup⟩
          have hasNew : ∀ x ∈ w :: entered, j.Has x := List.forall_mem_cons.mpr
            ⟨has_of_mem_neighbors neighbor, has⟩
          obtain ⟨inner, entered₁, explored, inside⟩ := ih w nodupNew hasNew (by simp; omega)
          obtain ⟨nodup₁, has₁⟩ := inside.nodup nodupNew hasNew
          have grown := inside.length_le
          simp only [List.length_cons] at grown
          obtain ⟨steps, entered', same, sweeps⟩ := ihRest (done ++ .enter v w :: (inner ++ [.leave w]))
            entered₁ nearRest nodup₁ has₁ (by omega)
          refine ⟨.enter v w :: inner ++ .leave w :: steps, entered', ?_,
            .enter neighbor old inside sweeps⟩
          simp only [sweepFrom, List.foldl_cons, old, if_false, explored] at same ⊢
          rw [same]
          simp
    obtain ⟨steps, entered', same, sweeps⟩ := sweep (j.neighbors v) [] entered (fun _ => id) nodup has
      deep
    refine ⟨steps, entered', ?_, sweeps⟩
    rw [explore_succ, same, List.nil_append]

/-- The tour of a graph from one of its premises. -/
theorem tour_sweeps {root : Nat} (bound : root < j.premises.length) :
    ∃ steps entered, j.tour root = steps ++ [.leave (.premise root)] ∧
      j.Sweeps (.premise root) (j.neighbors (.premise root)) [.premise root] steps entered := by
  have has : ∀ x ∈ [JoinVertex.premise root], j.Has x := by
    intro x mem
    exact List.mem_singleton.mp mem ▸ bound
  obtain ⟨steps, entered, same, sweeps⟩ :=
    explore_sweeps j.size (.premise root) (List.nodup_singleton _) has (by simp)
  exact ⟨steps, entered, by rw [tour, same], sweeps⟩

end JoinGraph

/-! ### Paths -/

/-- The relation of a step onto a fact. -/
def Key.relation? : Key → Option RelationId
  | .relation r _ => some r
  | _ => none

namespace Rule

open JoinGraph

variable {j : JoinGraph} {relations : List RelationId} {types : VariableTypes} {root : Nat}

/-- Only steps back are dropped. -/
theorem exists_returns (keys : List Key) :
    ∃ returns, keys = dropReturns keys ++ returns ∧ ∀ key ∈ returns, key = .parent := by
  refine ⟨(keys.reverse.takeWhile (· == .parent)).reverse, ?_, fun key mem => ?_⟩
  · rw [dropReturns, ← List.reverse_append, List.takeWhile_append_dropWhile, List.reverse_reverse]
  · exact eq_of_beq (List.all_eq_true.mp List.all_takeWhile key (List.mem_reverse.mp mem))

/-- What is read off a path without the steps back does not depend on those at its end. -/
theorem filterMap_dropReturns {α : Type} (f : Key → Option α) (back : f .parent = none)
    (keys : List Key) : (dropReturns keys).filterMap f = keys.filterMap f := by
  obtain ⟨returns, split, parents⟩ := exists_returns keys
  have none : returns.filterMap f = [] := by
    apply List.filterMap_eq_nil_iff.mpr
    intro key mem
    rw [parents key mem, back]
  conv_rhs => rw [split, List.filterMap_append, none, List.append_nil]

variable (relations types) in
/-- The premises of a path in the order in which it meets them, off the steps of its tour. -/
theorem termOrder_eq (bound : root < j.premises.length) :
    ∃ steps entered,
      j.Sweeps (.premise root) (j.neighbors (.premise root)) [.premise root] steps entered ∧
      j.tour root = steps ++ [.leave (.premise root)] ∧
      ∀ relation, (pathFrom j relations types root relation).termOrder =
        root :: steps.filterMap enteredPremise? := by
  obtain ⟨steps, entered, same, sweeps⟩ := tour_sweeps bound
  exact ⟨steps, entered, sweeps, same, fun relation => by simp [pathFrom, same, enteredPremise?]⟩

/-- The number of a premise. -/
def premise? : JoinVertex → Option Nat
  | .premise i => some i
  | .join _ => none

/-- The premises that are entered are among the vertices that are. -/
theorem filterMap_enteredPremise? (steps : List TourStep) :
    steps.filterMap enteredPremise? = (steps.filterMap entered?).filterMap premise? := by
  have : enteredPremise? = fun step => (entered? step).bind premise? := by
    funext step
    obtain ⟨_, _ | _⟩ | _ := step <;> rfl
  rw [this, ← List.filterMap_filterMap]

theorem mem_filterMap_premise? {vs : List JoinVertex} {i : Nat} :
    i ∈ vs.filterMap premise? ↔ .premise i ∈ vs := by
  rw [List.mem_filterMap]
  constructor
  · rintro ⟨k | k, mem, same⟩
    · obtain rfl : k = i := Option.some.inj same
      exact mem
    · cases same
  · exact fun mem => ⟨_, mem, rfl⟩

theorem nodup_filterMap_premise? {vs : List JoinVertex} (nodup : vs.Nodup) :
    (vs.filterMap premise?).Nodup := by
  refine nodup.filterMap ?_
  rintro (x | x) (y | y) n inX inY <;> simp_all [premise?]

/-- A path meets no premise twice. -/
theorem nodup_termOrder (bound : root < j.premises.length) (relation : RelationId) :
    (pathFrom j relations types root relation).termOrder.Nodup ∧
      ∀ i ∈ (pathFrom j relations types root relation).termOrder, i < j.premises.length := by
  obtain ⟨steps, entered, sweeps, _, order⟩ := termOrder_eq relations types bound
  obtain ⟨nodup, has⟩ := sweeps.nodup (List.nodup_singleton _)
    fun x mem => List.mem_singleton.mp mem ▸ bound
  have premises : root :: steps.filterMap enteredPremise? = entered.reverse.filterMap premise? := by
    rw [sweeps.entered_eq, filterMap_enteredPremise?]
    simp [premise?]
  rw [order, premises]
  refine ⟨nodup_filterMap_premise? (List.nodup_reverse.mpr nodup), fun i mem => ?_⟩
  exact has _ (List.mem_reverse.mp (mem_filterMap_premise?.mp mem))

/-- A path that meets as many facts as there are premises meets each premise once. -/
theorem termOrder_perm (bound : root < j.premises.length) {relation : RelationId}
    (complete : (pathFrom j relations types root relation).termOrder.length = j.premises.length) :
    (pathFrom j relations types root relation).termOrder.Perm (List.range j.premises.length) := by
  obtain ⟨nodup, bounds⟩ := nodup_termOrder bound relation
  refine (List.subperm_of_subset nodup fun i mem => ?_).perm_of_length_le (by simp [complete])
  exact List.mem_range.mpr (bounds i mem)

/-- The facts that a path meets are of the relations of its premises, in order. -/
theorem relations_pathFrom (bound : root < j.premises.length) {relation : RelationId}
    (isRoot : relations[root]? = some relation) :
    (pathFrom j relations types root relation).keys.filterMap Key.relation? =
      (pathFrom j relations types root relation).termOrder.filterMap (relations[·]?) := by
  obtain ⟨steps, entered, sweeps, same, order⟩ := termOrder_eq relations types bound
  have pointwise : ∀ step ∈ steps, (stepKey? j relations types root step).bind Key.relation? =
      (enteredPremise? step).bind (relations[·]?) := by
    intro step mem
    cases step with
    | leave v =>
      simp only [stepKey?, enteredPremise?]
      split <;> rfl
    | enter v w =>
      have neighbor := sweeps.neighbor_of_enter mem
      cases v with
      | premise i =>
        obtain ⟨k, p, rfl, placed⟩ := mem_neighbors_premise.mp neighbor
        simp only [stepKey?, enteredPremise?, placed]
        cases j.joins[k]? with
        | none => rfl
        | some name =>
          simp only [bind, Option.bind_some]
          cases types.lookup name <;> rfl
      | join k =>
        obtain ⟨i, p, rfl, placed⟩ := mem_neighbors_join.mp neighbor
        simp only [stepKey?, enteredPremise?, placed]
        cases same : relations[i]? <;> simp [Key.relation?, same]
  rw [order, pathFrom, filterMap_dropReturns _ rfl]
  have fused : (steps.filterMap (stepKey? j relations types root)).filterMap Key.relation? =
      (steps.filterMap enteredPremise?).filterMap (relations[·]?) := by
    rw [List.filterMap_filterMap, List.filterMap_filterMap, List.filterMap_congr pointwise]
  simp [Key.relation?, isRoot, same, fused, stepKey?]

end Rule

end ScoredChaining
