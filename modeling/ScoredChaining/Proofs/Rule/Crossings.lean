import ScoredChaining.Proofs.Rule.Tour
import ScoredChaining.Proofs.Rule.Unification

/-!
The links that a path of a rule asks a walk to cross, told by the premises whose facts they touch.

* `JoinGraph.crossings`: the crossings of the path from one premise. No two are the same.
* `Rule.Opens`: with these facts for the premises no two become the same link, so that the path can
  be walked.
* `Rule.opens_of_injective`: different facts for different premises always open a path.
-/

namespace ScoredChaining

/-- A step over a position of a fact: onto the fact, or off it. -/
structure Crossing (A : Type) where
  inward : Bool
  fact : A
  position : Position
  deriving DecidableEq

/-- The same step over another fact. -/
def Crossing.map {A B : Type} (f : A → B) (c : Crossing A) : Crossing B :=
  ⟨c.inward, f c.fact, c.position⟩

theorem Term.nodup_firstOccurrences (names : List String) : (firstOccurrences names).Nodup := by
  have step : ∀ seen : List String, seen.Nodup → (names.foldl (fun seen name =>
      if seen.contains name then seen else seen ++ [name]) seen).Nodup := by
    induction names with
    | nil => exact fun _ nodup => nodup
    | cons name names ih =>
      intro seen nodup
      rw [List.foldl_cons]
      split
      · exact ih seen nodup
      · rename_i new
        refine ih _ (List.nodup_append.mpr ⟨nodup, List.nodup_singleton name, ?_⟩)
        intro other mem _ mem'
        obtain rfl := List.mem_singleton.mp mem'
        exact fun same => new (List.contains_iff_mem.mpr (same ▸ mem))
  exact step [] .nil

namespace JoinGraph

variable {j : JoinGraph} {root : Nat}

/-- No variable is shared twice. -/
theorem nodup_joins (premises : List Term) : (ofPremises premises).joins.Nodup :=
  (Term.nodup_firstOccurrences _).filter _

/-- The crossing of a step of the tour, with the premise in the place of its fact. -/
def crossing? (j : JoinGraph) : TourStep → Option (Crossing Nat)
  | .enter (.premise i) (.join k) => (j.placement? i k).map fun p => ⟨false, i, p⟩
  | .enter (.join k) (.premise i) => (j.placement? i k).map fun p => ⟨true, i, p⟩
  | _ => none

/-- The crossings of the path from a premise. The first leads from the witness of its fact onto the
fact. -/
def crossings (j : JoinGraph) (root : Nat) : List (Crossing Nat) :=
  ⟨true, root, .head⟩ :: (j.tour root).filterMap j.crossing?

/-- A crossing is that of a step between neighbours, off the fact of a premise or onto it. -/
theorem crossing?_cases {v w : JoinVertex} (neighbor : w ∈ j.neighbors v) :
    (∃ i k p, v = .premise i ∧ w = .join k ∧ j.placement? i k = some p ∧
        j.crossing? (.enter v w) = some ⟨false, i, p⟩) ∨
      ∃ i k p, v = .join k ∧ w = .premise i ∧ j.placement? i k = some p ∧
        j.crossing? (.enter v w) = some ⟨true, i, p⟩ := by
  cases v with
  | premise i =>
    obtain ⟨k, p, rfl, placed⟩ := mem_neighbors_premise.mp neighbor
    exact .inl ⟨i, k, p, rfl, rfl, placed, by simp [crossing?, placed]⟩
  | join k =>
    obtain ⟨i, p, rfl, placed⟩ := mem_neighbors_join.mp neighbor
    exact .inr ⟨i, k, p, rfl, rfl, placed, by simp [crossing?, placed]⟩

/-- A variable is told by a position that it has in a premise. -/
theorem eq_of_placement_eq (nodup : j.joins.Nodup) {i k k' : Nat} {p : Position}
    (at_ : j.placement? i k = some p) (at' : j.placement? i k' = some p) : k = k' := by
  obtain ⟨t, name, isPremise, isJoin, found⟩ := placement?_eq_some_iff.mp at_
  obtain ⟨t', name', isPremise', isJoin', found'⟩ := placement?_eq_some_iff.mp at'
  obtain rfl := Option.some.inj (isPremise.symm.trans isPremise')
  have sameName : name = name' := by
    have first := Term.argAt?_of_positionOf? found
    rw [Term.argAt?_of_positionOf? found'] at first
    exact (Arg.var.inj (Option.some.inj first)).symm
  obtain ⟨bound, isJoin⟩ := List.getElem?_eq_some_iff.mp isJoin
  obtain ⟨bound', isJoin'⟩ := List.getElem?_eq_some_iff.mp isJoin'
  exact (List.Nodup.getElem_inj_iff nodup).mp (isJoin.trans (sameName.trans isJoin'.symm))

/-- Steps with the same crossing enter the same vertex. -/
theorem eq_of_crossing_eq (nodup : j.joins.Nodup) {v w v' w' : JoinVertex} {c : Crossing Nat}
    (neighbor : w ∈ j.neighbors v) (neighbor' : w' ∈ j.neighbors v')
    (crossing : j.crossing? (.enter v w) = some c)
    (crossing' : j.crossing? (.enter v' w') = some c) : w = w' := by
  rcases crossing?_cases neighbor with
    ⟨i, k, p, rfl, rfl, placed, same⟩ | ⟨i, k, p, rfl, rfl, placed, same⟩ <;>
    rcases crossing?_cases neighbor' with
      ⟨i', k', p', rfl, rfl, placed', same'⟩ | ⟨i', k', p', rfl, rfl, placed', same'⟩ <;>
    obtain rfl := Option.some.inj (crossing.symm.trans same) <;>
    cases crossing'.symm.trans same'
  · rw [eq_of_placement_eq nodup placed placed']
  · rfl

/-- The crossings are over facts of premises. -/
theorem bound_of_mem_crossings (bound : root < j.premises.length) {c : Crossing Nat}
    (mem : c ∈ j.crossings root) : c.fact < j.premises.length := by
  rcases List.mem_cons.mp mem with rfl | mem
  · exact bound
  · obtain ⟨step, memStep, crossing⟩ := List.mem_filterMap.mp mem
    obtain ⟨steps, entered, tour, sweeps⟩ := tour_sweeps bound
    cases step with
    | leave v => cases crossing
    | enter v w =>
      have inSteps : TourStep.enter v w ∈ steps := by simpa [tour] using memStep
      rcases crossing?_cases (sweeps.neighbor_of_enter inSteps) with
        ⟨i, k, p, rfl, rfl, placed, same⟩ | ⟨i, k, p, rfl, rfl, placed, same⟩ <;>
        obtain rfl := Option.some.inj (crossing.symm.trans same) <;>
        exact (bounds_of_placement? placed).1

/-- No two crossings of a path are the same. -/
theorem nodup_crossings (nodup : j.joins.Nodup) (bound : root < j.premises.length) :
    (j.crossings root).Nodup := by
  obtain ⟨steps, entered, tour, sweeps⟩ := tour_sweeps bound
  have distinct : entered.Nodup := (sweeps.nodup (List.nodup_singleton _) fun x mem =>
    List.mem_singleton.mp mem ▸ bound).1
  rw [sweeps.entered_eq] at distinct
  obtain ⟨enters, _, apart⟩ := List.nodup_append.mp distinct
  have enters : (steps.filterMap entered?).Nodup := List.nodup_reverse.mp enters
  have same : (j.tour root).filterMap j.crossing? = steps.filterMap j.crossing? := by
    rw [tour, List.filterMap_append]
    simp [crossing?]
  rw [crossings, same]
  refine List.nodup_cons.mpr ⟨fun again => ?_, ?_⟩
  · -- The first crossing leads onto the fact of the root, which the tour does not enter.
    obtain ⟨step, memStep, crossing⟩ := List.mem_filterMap.mp again
    cases step with
    | leave v => cases crossing
    | enter v w =>
      rcases crossing?_cases (sweeps.neighbor_of_enter memStep) with
        ⟨i, k, p, rfl, rfl, _, same⟩ | ⟨i, k, p, rfl, rfl, _, same⟩
      · cases crossing.symm.trans same
      · cases crossing.symm.trans same
        exact apart _ (List.mem_reverse.mpr (List.mem_filterMap.mpr ⟨_, memStep, rfl⟩)) _
          (List.mem_singleton_self _) rfl
  · rw [List.Nodup, List.pairwise_filterMap] at enters ⊢
    refine enters.imp_of_mem fun {step step'} mem mem' different => ?_
    rintro c crossing _ crossing' rfl
    cases step with
    | leave v => cases crossing
    | enter v w =>
      cases step' with
      | leave v' => cases crossing'
      | enter v' w' =>
        exact different w rfl w' rfl (eq_of_crossing_eq nodup (sweeps.neighbor_of_enter mem)
          (sweeps.neighbor_of_enter mem') crossing crossing')

end JoinGraph

namespace Rule

variable {A B : Type} {rule : Rule} {root : Nat} {β : Nat → A} {γ : Nat → B}

/-- With these facts for the premises, the path from the premise `root` crosses no link twice. -/
def Opens (rule : Rule) (root : Nat) (β : Nat → A) : Prop :=
  (((JoinGraph.ofPremises rule.premises).crossings root).map (Crossing.map β)).Nodup

instance [DecidableEq A] : Decidable (rule.Opens root β) :=
  inferInstanceAs (Decidable (List.Nodup _))

/-- What opens a path does so under any names that tell the facts apart. -/
theorem Opens.of_names (opens : rule.Opens root β) (bound : root < rule.premises.length)
    (names : ∀ i < rule.premises.length, ∀ i' < rule.premises.length, γ i = γ i' → β i = β i') :
    rule.Opens root γ := by
  have nodup := JoinGraph.nodup_crossings (JoinGraph.nodup_joins rule.premises) bound
  apply nodup.map_on
  intro c mem c' mem' same
  obtain ⟨sameWay, sameFact, samePosition⟩ := Crossing.mk.inj same
  have sameFact := names _ (JoinGraph.bound_of_mem_crossings bound mem) _
    (JoinGraph.bound_of_mem_crossings bound mem') sameFact
  refine List.inj_on_of_nodup_map opens mem mem' ?_
  rw [Crossing.map, Crossing.map, sameWay, sameFact, samePosition]

/-- Different facts for different premises open every path. -/
theorem opens_of_injective (bound : root < rule.premises.length)
    (injective : ∀ i < rule.premises.length, ∀ i' < rule.premises.length, β i = β i' → i = i') :
    rule.Opens root β := by
  have itself : rule.Opens root fun i => i := by
    rw [Opens]
    convert JoinGraph.nodup_crossings (JoinGraph.nodup_joins rule.premises) bound
    exact List.map_id _
  exact itself.of_names bound injective

end Rule

end ScoredChaining
