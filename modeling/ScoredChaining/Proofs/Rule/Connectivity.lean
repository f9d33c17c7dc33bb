import Mathlib.Logic.Relation
import ScoredChaining.Proofs.Rule.Crossings

/-!
Depth-first searches of a join graph, and which premises hang together.

* `JoinGraph.DepthFirst`: what makes steps a depth-first search, whatever the order in which it
  tries neighbours. A tour is one (`JoinGraph.depthFirst_tour`).
* `JoinGraph.DepthFirst.mem_entered_iff`: a search enters what can be reached from its root.
* `JoinGraph.reaches_premise_iff`: one premise can be reached from another just if a chain of
  premises leads there in which each shares a variable with the next.
* `Rule.length_order_iff`: counting the premises that a search enters decides whether all can be
  reached.
-/

namespace ScoredChaining

/-! ### Variables of terms -/

namespace Term

variable {t : Term} {name : String}

/-- The variable stands in the term. -/
def Mentions (t : Term) (name : String) : Prop :=
  ∃ p, t.argAt? p = some (.var name)

theorem mem_firstOccurrences {names : List String} :
    name ∈ firstOccurrences names ↔ name ∈ names := by
  have fold : ∀ seen : List String, name ∈ names.foldl (fun seen name =>
      if seen.contains name then seen else seen ++ [name]) seen ↔ name ∈ seen ∨ name ∈ names := by
    induction names with
    | nil => simp
    | cons first rest ih =>
      intro seen
      rw [List.foldl_cons]
      split
      · rename_i old
        rw [ih, List.mem_cons]
        have : first ∈ seen := List.contains_iff_mem.mp old
        constructor
        · rintro (mem | mem)
          · exact .inl mem
          · exact .inr (.inr mem)
        · rintro (mem | rfl | mem)
          · exact .inl mem
          · exact .inl this
          · exact .inr mem
      · rw [ih, List.mem_append, List.mem_singleton, List.mem_cons, or_assoc]
  exact (fold []).trans (by simp)

theorem mem_vars : name ∈ t.vars ↔ t.Mentions name := by
  rw [vars, mem_firstOccurrences, List.mem_filterMap]
  constructor
  · rintro ⟨⟨p, a⟩, mem, isName⟩
    cases a with
    | const c => cases isName
    | var other =>
      obtain rfl := Option.some.inj isName
      exact ⟨p, mem_positions.mp mem⟩
  · rintro ⟨p, at_⟩
    exact ⟨(p, .var name), mem_positions.mpr at_, rfl⟩

/-- A variable of a term has a first position there. -/
theorem exists_positionOf? (mentions : t.Mentions name) : ∃ p, t.positionOf? name = some p := by
  obtain ⟨p, at_⟩ := mentions
  rw [positionOf?]
  cases found : t.positions.find? fun x => x.2 == .var name with
  | some x => exact ⟨x.1, rfl⟩
  | none =>
    have := List.find?_eq_none.mp found _ (mem_positions.mpr at_)
    simp at this

end Term

namespace JoinGraph

variable {j : JoinGraph} {v w : JoinVertex} {ws entered entered' : List JoinVertex}
  {steps : List TourStep} {root i k : Nat} {premises : List Term} {name : String}

/-! ### Searches -/

/-- Steps from a vertex that come back to it: each vertex that is entered is left again, and what
lies between are such steps from it. -/
inductive Nested (j : JoinGraph) : JoinVertex → List TourStep → Prop where
  | nil {v : JoinVertex} : Nested j v []
  | child {v w : JoinVertex} {inner rest : List TourStep} : w ∈ j.neighbors v → Nested j w inner →
      Nested j v rest → Nested j v (.enter v w :: inner ++ .leave w :: rest)

/-- The lines of the graph lead from one vertex to the other. -/
def Reaches (j : JoinGraph) : JoinVertex → JoinVertex → Prop :=
  Relation.ReflTransGen fun v w => w ∈ j.neighbors v

/-- The steps are a depth-first search from the root. -/
structure DepthFirst (j : JoinGraph) (root : JoinVertex) (steps : List TourStep) : Prop where
  nested : ∃ below, steps = below ++ [.leave root] ∧ j.Nested root below
  once : (root :: steps.filterMap entered?).Nodup
  reaches : ∀ v, j.Reaches root v → v ∈ root :: steps.filterMap entered?

/-- Nothing is entered that cannot be reached. -/
theorem Nested.reaches (nested : j.Nested v steps) (mem : w ∈ steps.filterMap entered?) :
    j.Reaches v w := by
  induction nested with
  | nil => cases mem
  | child neighbor _ _ ihInner ihRest =>
    simp only [List.cons_append, List.filterMap_cons, List.filterMap_append, entered?,
      List.mem_cons, List.mem_append] at mem
    rcases mem with rfl | mem | mem
    · exact .single neighbor
    · exact .head neighbor (ihInner mem)
    · exact ihRest mem

/-- A search enters what can be reached from its root. -/
theorem DepthFirst.mem_entered_iff (search : j.DepthFirst v steps) :
    w ∈ v :: steps.filterMap entered? ↔ j.Reaches v w := by
  refine ⟨fun mem => ?_, search.reaches w⟩
  obtain ⟨below, rfl, nested⟩ := search.nested
  rcases List.mem_cons.mp mem with rfl | mem
  · exact .refl
  · exact nested.reaches (by simpa [entered?] using mem)

namespace Sweeps

theorem nested (sweeps : j.Sweeps v ws entered steps entered') : j.Nested v steps := by
  induction sweeps with
  | nil => exact .nil
  | skip _ _ ih => exact ih
  | enter neighbor _ _ _ inner outer => exact .child neighbor inner outer

theorem mem_of_mem (sweeps : j.Sweeps v ws entered steps entered') (mem : w ∈ entered) :
    w ∈ entered' := by
  rw [sweeps.entered_eq]
  exact List.mem_append_right _ mem

/-- In the end the vertices that were tried are entered, and so are the neighbours of all that were
entered on the way. -/
theorem closed (sweeps : j.Sweeps v ws entered steps entered') :
    (∀ w ∈ ws, w ∈ entered') ∧
      ∀ x ∈ entered', x ∈ entered ∨ ∀ y ∈ j.neighbors x, y ∈ entered' := by
  induction sweeps with
  | nil => exact ⟨by simp, fun _ => .inl⟩
  | skip old sweeps ih =>
    exact ⟨List.forall_mem_cons.mpr ⟨sweeps.mem_of_mem old, ih.1⟩, ih.2⟩
  | enter _ _ inner outer ihInner ihOuter =>
    refine ⟨List.forall_mem_cons.mpr
      ⟨outer.mem_of_mem (inner.mem_of_mem List.mem_cons_self), ihOuter.1⟩, fun x mem => ?_⟩
    rcases ihOuter.2 x mem with mem₁ | neighbors
    · rcases ihInner.2 x mem₁ with before | neighbors
      · rcases List.mem_cons.mp before with rfl | before
        · exact .inr fun y near => outer.mem_of_mem (ihInner.1 y near)
        · exact .inl before
      · exact .inr fun y near => outer.mem_of_mem (neighbors y near)
    · exact .inr neighbors

end Sweeps

/-- A tour is a depth-first search. -/
theorem depthFirst_tour (bound : root < j.premises.length) :
    j.DepthFirst (.premise root) (j.tour root) := by
  obtain ⟨steps, entered, tour, sweeps⟩ := tour_sweeps bound
  have same : .premise root :: (j.tour root).filterMap entered? = entered.reverse := by
    rw [tour, sweeps.entered_eq]
    simp [entered?]
  refine ⟨⟨steps, tour, sweeps.nested⟩, ?_, fun v reaches => ?_⟩
  · rw [same]
    exact List.nodup_reverse.mpr (sweeps.nodup (List.nodup_singleton _)
      fun x mem => List.mem_singleton.mp mem ▸ bound).1
  · rw [same, List.mem_reverse]
    obtain ⟨tried, closed⟩ := sweeps.closed
    induction reaches with
    | refl => exact sweeps.mem_of_mem (List.mem_singleton_self _)
    | tail _ neighbor ih =>
      rcases closed _ ih with isRoot | neighbors
      · obtain rfl := List.mem_singleton.mp isRoot
        exact tried _ neighbor
      · exact neighbors _ neighbor

/-! ### Shared variables -/

/-- Two premises have a variable in common. -/
def Shares (premises : List Term) (i k : Nat) : Prop :=
  ∃ t u name, premises[i]? = some t ∧ premises[k]? = some u ∧ t.Mentions name ∧ u.Mentions name

/-- A shared variable stands in a premise. -/
theorem exists_placement_of_join (isJoin : k < (ofPremises premises).joins.length) :
    ∃ i p, (ofPremises premises).placement? i k = some p := by
  have mem := (List.mem_filter.mp (List.getElem_mem isJoin)).1
  obtain ⟨t, isPremise, mem⟩ := List.mem_flatMap.mp (Term.mem_firstOccurrences.mp mem)
  obtain ⟨i, at_⟩ := List.getElem?_of_mem isPremise
  obtain ⟨p, placed⟩ := Term.exists_positionOf? (Term.mem_vars.mp mem)
  exact ⟨i, p, placement?_eq_some_iff.mpr ⟨t, _, at_, List.getElem?_eq_getElem isJoin, placed⟩⟩

/-- A variable of two premises is shared. -/
theorem exists_join {t u : Term} (different : i ≠ k) (isFirst : premises[i]? = some t)
    (isSecond : premises[k]? = some u) (first : t.Mentions name) (second : u.Mentions name) :
    ∃ n : Nat, (ofPremises premises).joins[n]? = some name := by
  apply List.getElem?_of_mem
  refine List.mem_filter.mpr ⟨Term.mem_firstOccurrences.mpr (List.mem_flatMap.mpr
    ⟨t, List.mem_of_getElem? isFirst, Term.mem_vars.mpr first⟩), decide_eq_true ?_⟩
  obtain ⟨bound, rfl⟩ := List.getElem?_eq_some_iff.mp isFirst
  have others : u ∈ premises.eraseIdx i :=
    List.mem_eraseIdx_iff_getElem?.mpr ⟨k, different.symm, isSecond⟩
  have holds {t : Term} (mentions : t.Mentions name) : t.vars.contains name = true :=
    List.contains_iff_mem.mpr (Term.mem_vars.mpr mentions)
  have one : 0 < (holders (premises.eraseIdx i) name).length :=
    List.length_pos_of_mem (List.mem_filter.mpr ⟨others, holds second⟩)
  have total : (holders (premises[i] :: premises.eraseIdx i) name).length =
      (holders premises name).length :=
    ((List.getElem_cons_eraseIdx_perm bound).filter _).length_eq
  have front : holders (premises[i] :: premises.eraseIdx i) name =
      premises[i] :: holders (premises.eraseIdx i) name := List.filter_cons_of_pos (holds first)
  rw [front, List.length_cons] at total
  omega

theorem mentions_of_placement? {p : Position}
    (placed : (ofPremises premises).placement? i k = some p) : ∃ t name, premises[i]? = some t ∧
      (ofPremises premises).joins[k]? = some name ∧ t.Mentions name := by
  obtain ⟨t, name, isPremise, isJoin, found⟩ := placement?_eq_some_iff.mp placed
  exact ⟨t, name, isPremise, isJoin, p, Term.argAt?_of_positionOf? found⟩

/-- Premises with a common variable can be reached from each other. -/
theorem reaches_of_shares (shares : Shares premises i k) :
    (ofPremises premises).Reaches (.premise i) (.premise k) := by
  obtain ⟨t, u, name, isFirst, isSecond, first, second⟩ := shares
  by_cases same : i = k
  · exact same ▸ .refl
  · obtain ⟨n, isJoin⟩ := exists_join same isFirst isSecond first second
    obtain ⟨p, placed⟩ := Term.exists_positionOf? first
    obtain ⟨q, placed'⟩ := Term.exists_positionOf? second
    have onto := placement?_eq_some_iff.mpr ⟨t, name, isFirst, isJoin, placed⟩
    have off := placement?_eq_some_iff.mpr ⟨u, name, isSecond, isJoin, placed'⟩
    exact .tail (.single (mem_neighbors_premise.mpr ⟨n, p, rfl, onto⟩))
      (mem_neighbors_join.mpr ⟨k, q, rfl, off⟩)

/-- A chain of premises in which each shares a variable with the next leads from a premise to the
vertex: to a premise itself, or to one in which a variable stands. -/
def Chained (premises : List Term) (i : Nat) : JoinVertex → Prop
  | .premise k => Relation.ReflTransGen (Shares premises) i k
  | .join n => ∃ m p, (ofPremises premises).placement? m n = some p ∧
      Relation.ReflTransGen (Shares premises) i m

theorem chained_of_reaches (reaches : (ofPremises premises).Reaches (.premise i) v) :
    Chained premises i v := by
  induction reaches with
  | refl => exact .refl
  | @tail v w _ neighbor ih =>
    cases v with
    | premise m =>
      obtain ⟨n, p, rfl, placed⟩ := mem_neighbors_premise.mp neighbor
      exact ⟨m, p, placed, ih⟩
    | join n =>
      obtain ⟨l, q, rfl, placed'⟩ := mem_neighbors_join.mp neighbor
      obtain ⟨m, p, placed, chain⟩ := ih
      obtain ⟨t, name, isFirst, isJoin, first⟩ := mentions_of_placement? placed
      obtain ⟨u, name', isSecond, isJoin', second⟩ := mentions_of_placement? placed'
      obtain rfl := Option.some.inj (isJoin.symm.trans isJoin')
      exact .tail chain ⟨t, u, name, isFirst, isSecond, first, second⟩

/-- One premise can be reached from another just if a chain of premises leads there in which each
shares a variable with the next. -/
theorem reaches_premise_iff : (ofPremises premises).Reaches (.premise i) (.premise k) ↔
    Relation.ReflTransGen (Shares premises) i k := by
  constructor
  · exact chained_of_reaches
  · intro chain
    induction chain with
    | refl => exact .refl
    | tail _ shares ih => exact ih.trans (reaches_of_shares shares)

end JoinGraph

/-! ### Counting premises -/

namespace Rule

open JoinGraph

variable {j : JoinGraph} {steps : List TourStep} {root i : Nat}

/-- The premises that a search meets are those that can be reached, each once. -/
theorem mem_order_iff (search : j.DepthFirst (.premise root) steps) :
    i ∈ root :: steps.filterMap enteredPremise? ↔ j.Reaches (.premise root) (.premise i) := by
  rw [← search.mem_entered_iff, filterMap_enteredPremise?, ← mem_filterMap_premise?]
  rfl

theorem nodup_order (search : j.DepthFirst (.premise root) steps) :
    (root :: steps.filterMap enteredPremise?).Nodup := by
  have nodup := nodup_filterMap_premise? search.once
  rwa [filterMap_enteredPremise?]

theorem lt_of_reaches (bound : root < j.premises.length)
    (reaches : j.Reaches (.premise root) (.premise i)) : i < j.premises.length := by
  cases reaches with
  | refl => exact bound
  | tail _ neighbor => exact has_of_mem_neighbors neighbor

/-- A search meets as many premises as there are just if all can be reached. -/
theorem length_order_iff (bound : root < j.premises.length)
    (search : j.DepthFirst (.premise root) steps) :
    (root :: steps.filterMap enteredPremise?).length = j.premises.length ↔
      ∀ i < j.premises.length, j.Reaches (.premise root) (.premise i) := by
  have subperm : (root :: steps.filterMap enteredPremise?).Subperm
      (List.range j.premises.length) :=
    List.subperm_of_subset (nodup_order search) fun i mem =>
      List.mem_range.mpr (lt_of_reaches bound ((mem_order_iff search).mp mem))
  constructor
  · intro complete i isPremise
    have perm := subperm.perm_of_length_le (by simp [← complete])
    exact (mem_order_iff search).mp (perm.mem_iff.mpr (List.mem_range.mpr isPremise))
  · intro reaches
    have all : (List.range j.premises.length).Subperm (root :: steps.filterMap enteredPremise?) :=
      List.subperm_of_subset List.nodup_range fun i mem =>
        (mem_order_iff search).mpr (reaches i (List.mem_range.mp mem))
    rw [(subperm.antisymm all).length_eq, List.length_range]

end Rule

end ScoredChaining
