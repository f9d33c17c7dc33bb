import Mathlib.Data.List.Induction
import ScoredChaining.Proofs.Decision.Policy

/-!
A dispatch as the list of the policies that were added to it.

* `Roster`: the policies in the order in which they were added, of whatever relations, and the
  fallback. `Roster.dispatch` adds them one after the other.
* `Roster.Step`: what a call answers and makes of such a list, in which no policy is put together
  from others.
* `Roster.step_dispatch`: every call does this with the policies of a dispatch.
* `Dispatch.performAll_ofFallback`: so does any sequence of calls on a dispatch without policies.

Policies of a custom kind may record whatever they like each time that they are asked or told, so
the list also says how often that is.
-/

namespace ScoredChaining

variable {Custom : Type}

/-- The policies that were added with their relations, the earliest first, and the one that is asked
last. -/
structure Roster (Custom : Type) where
  members : List (RelationId × Policy Custom)
  fallback : Policy Custom

namespace Roster

/-- The dispatch that the policies are added to. -/
def dispatch (r : Roster Custom) : Dispatch Custom :=
  r.members.foldl (fun d x => d.add x.1 x.2) (.ofFallback r.fallback)

/-- What the dispatch has for each relation. -/
def listed (members : List (RelationId × Policy Custom)) : List (RelationId × Policy Custom) :=
  members.foldl (fun byRelation x => Dispatch.addTo x.1 x.2 byRelation) []

theorem listed_append_singleton (members : List (RelationId × Policy Custom))
    (x : RelationId × Policy Custom) :
    listed (members ++ [x]) = Dispatch.addTo x.1 x.2 (listed members) := by
  rw [listed, List.foldl_append, List.foldl_cons, List.foldl_nil, ← listed]

theorem dispatch_eq (r : Roster Custom) : r.dispatch = ⟨listed r.members, r.fallback⟩ := by
  obtain ⟨members, fallback⟩ := r
  unfold dispatch
  induction members using List.reverseRecOn with
  | nil => rfl
  | append_singleton members x ih =>
    rw [listed_append_singleton, List.foldl_append, List.foldl_cons, List.foldl_nil, ih]
    rfl

end Roster

variable [Decider Custom] {e : Edge} {score : Float}

/-! ### The policy that was added last -/

namespace Dispatch

variable {byRelation : List (RelationId × Policy Custom)}

/-- The policy that was added last is asked if all others of its relation are silent. -/
theorem decideFor_addTo (relation : RelationId) (p : Policy Custom) :
    Policy.decideFor e score (addTo relation p byRelation) =
      if relation = e.relation ∧ (Policy.decideFor e score byRelation).1 = .ok none then
        ((p.decide e score).1,
          addTo relation (p.decide e score).2 (Policy.decideFor e score byRelation).2)
      else
        ((Policy.decideFor e score byRelation).1,
          addTo relation p (Policy.decideFor e score byRelation).2) := by
  induction byRelation with
  | nil =>
    by_cases related : relation = e.relation <;> simp [addTo, Policy.decideFor, related]
  | cons x rest ih =>
    obtain ⟨relation', existing⟩ := x
    by_cases same : relation' = relation
    · subst same
      by_cases related : relation' = e.relation
      · simp only [addTo, Policy.decideFor, if_true, related, true_and, Policy.decide]
        generalize existing.decide e score = answer
        obtain ⟨_ | _ | answer, existing'⟩ := answer <;> simp
      · simp [addTo, Policy.decideFor, related]
    · by_cases related : relation' = e.relation
      · have other : e.relation ≠ relation := fun also => same (related.trans also)
        simp [addTo, Policy.decideFor, related, other, other.symm]
      · simp only [addTo, Policy.decideFor, if_neg same, if_neg related, ih]
        split <;> rfl

theorem committedFor_addTo (relation : RelationId) (p : Policy Custom) :
    Policy.committedFor e (addTo relation p byRelation) =
      addTo relation (if relation = e.relation then p.committed e else p)
        (Policy.committedFor e byRelation) := by
  induction byRelation with
  | nil => by_cases related : relation = e.relation <;> simp [addTo, Policy.committedFor, related]
  | cons x rest ih =>
    obtain ⟨relation', existing⟩ := x
    by_cases same : relation' = relation
    · subst same
      by_cases related : relation' = e.relation <;>
        simp [addTo, Policy.committedFor, Policy.committed, related]
    · by_cases related : relation' = e.relation
      · have other : e.relation ≠ relation := fun also => same (related.trans also)
        simp [addTo, Policy.committedFor, related, other, other.symm]
      · simp [addTo, Policy.committedFor, same, related, ih]

theorem decide_of_speaks {d : Dispatch Custom} {answer : Except DecisionError (Option Bool)}
    (asked : Policy.decideFor e score d.byRelation = (answer, byRelation))
    (speaks : answer ≠ .ok none) : d.decide e score = (answer, { d with byRelation }) := by
  rw [decide, asked]
  obtain _ | _ | answer := answer
  · rfl
  · exact absurd rfl speaks
  · rfl

theorem decide_of_silent {d : Dispatch Custom}
    (asked : Policy.decideFor e score d.byRelation = (.ok none, byRelation)) :
    d.decide e score =
      ((d.fallback.decide e score).1, ⟨byRelation, (d.fallback.decide e score).2⟩) := by
  rw [decide, asked]

/-! ### Calls -/

/-- A call that adds a policy, or asks or tells the policies. -/
inductive Operation (Custom : Type) where
  | add (relation : RelationId) (p : Policy Custom)
  | decide (e : Edge) (score : Float)
  | committed (e : Edge)
  | clear

/-- The answer of a call that asks for one, and the dispatch after it. -/
def perform (d : Dispatch Custom) :
    Operation Custom → Option (Except DecisionError (Option Bool)) × Dispatch Custom
  | .add relation p => (none, d.add relation p)
  | .decide e score => (some (d.decide e score).1, (d.decide e score).2)
  | .committed e => (none, d.committed e)
  | .clear => (none, d.clear)

/-- Makes the calls in order. -/
def performAll (d : Dispatch Custom) : List (Operation Custom) →
    List (Option (Except DecisionError (Option Bool))) × Dispatch Custom
  | [] => ([], d)
  | operation :: rest =>
    let (answer, d) := d.perform operation
    let (answers, d) := d.performAll rest
    (answer :: answers, d)

end Dispatch

/-! ### What the calls make of the policies -/

namespace Roster

/-- The policy after it was asked about the candidate, if it is of its relation. -/
def asked (e : Edge) (score : Float) (x : RelationId × Policy Custom) :
    RelationId × Policy Custom :=
  if x.1 = e.relation then (x.1, (x.2.decide e score).2) else x

/-- The policy after it was told of the fact, if it is of its relation. -/
def told (e : Edge) (x : RelationId × Policy Custom) : RelationId × Policy Custom :=
  if x.1 = e.relation then (x.1, x.2.committed e) else x

/-- The policies of the candidate's relation have nothing to say about it. -/
def Silent (e : Edge) (score : Float) (members : List (RelationId × Policy Custom)) : Prop :=
  ∀ x ∈ members, x.1 = e.relation → (x.2.decide e score).1 = .ok none

/-- What a call answers and makes of the policies. -/
inductive Step (r : Roster Custom) : Dispatch.Operation Custom →
    Option (Except DecisionError (Option Bool)) → Roster Custom → Prop where
  | added (relation : RelationId) (p : Policy Custom) :
      Step r (.add relation p) none { r with members := r.members ++ [(relation, p)] }
  /-- The first policy of the relation that is not silent answers, or fails. None is asked after
  it. -/
  | answered {e : Edge} {score : Float} {before after : List (RelationId × Policy Custom)}
      {p : Policy Custom} (split : r.members = before ++ (e.relation, p) :: after)
      (silent : Silent e score before) (speaks : (p.decide e score).1 ≠ .ok none) :
      Step r (.decide e score) (some (p.decide e score).1)
        { r with
          members := before.map (asked e score) ++ (e.relation, (p.decide e score).2) :: after }
  /-- All policies of the relation are silent, and the fallback is asked. -/
  | passed {e : Edge} {score : Float} (silent : Silent e score r.members) :
      Step r (.decide e score) (some (r.fallback.decide e score).1)
        ⟨r.members.map (asked e score), (r.fallback.decide e score).2⟩
  | noted (e : Edge) :
      Step r (.committed e) none ⟨r.members.map (told e), r.fallback.committed e⟩
  | cleared : Step r .clear none ⟨r.members.map fun x => (x.1, x.2.clear), r.fallback.clear⟩

/-- What calls answer and make of the policies, one after the other. -/
inductive Run : Roster Custom → List (Dispatch.Operation Custom) →
    List (Option (Except DecisionError (Option Bool))) → Roster Custom → Prop where
  | nil (r : Roster Custom) : Run r [] [] r
  | cons {r r' r'' : Roster Custom} {operation : Dispatch.Operation Custom}
      {operations : List (Dispatch.Operation Custom)}
      {answer : Option (Except DecisionError (Option Bool))}
      {answers : List (Option (Except DecisionError (Option Bool)))}
      (first : Step r operation answer r') (rest : Run r' operations answers r'') :
      Run r (operation :: operations) (answer :: answers) r''

theorem Silent.snoc {members : List (RelationId × Policy Custom)} {x : RelationId × Policy Custom}
    (silent : Silent e score members)
    (last : x.1 = e.relation → (x.2.decide e score).1 = .ok none) :
    Silent e score (members ++ [x]) := by
  intro y mem
  rcases List.mem_append.mp mem with old | new
  · exact silent y old
  · rwa [List.mem_singleton.mp new]

/-- A dispatch asks the policies of the candidate's relation in the order in which they were added,
until one is not silent. -/
theorem decideFor_listed (e : Edge) (score : Float) (members : List (RelationId × Policy Custom)) :
    (∃ before p after, members = before ++ (e.relation, p) :: after ∧ Silent e score before ∧
      (p.decide e score).1 ≠ .ok none ∧
      Policy.decideFor e score (listed members) = ((p.decide e score).1,
        listed (before.map (asked e score) ++ (e.relation, (p.decide e score).2) :: after))) ∨
    (Silent e score members ∧
      Policy.decideFor e score (listed members) =
        (.ok none, listed (members.map (asked e score)))) := by
  induction members using List.reverseRecOn with
  | nil => exact .inr ⟨nofun, rfl⟩
  | append_singleton members x ih =>
    rw [listed_append_singleton, Dispatch.decideFor_addTo]
    rcases ih with ⟨before, p, after, split, silent, speaks, stopped⟩ | ⟨silent, passed⟩
    · refine .inl ⟨before, p, after ++ [x], by simp [split], silent, speaks, ?_⟩
      rw [stopped, if_neg fun both => speaks both.2, ← List.cons_append, ← List.append_assoc,
        listed_append_singleton]
    · rw [passed, List.map_append, List.map_singleton, listed_append_singleton, asked]
      by_cases related : x.1 = e.relation
      · rw [if_pos ⟨related, rfl⟩, if_pos related]
        by_cases quiet : (x.2.decide e score).1 = .ok none
        · exact .inr ⟨silent.snoc fun _ => quiet, by rw [quiet]⟩
        · refine .inl ⟨members, x.2, [], by rw [← related], silent, quiet, ?_⟩
          rw [listed_append_singleton, related]
      · rw [if_neg fun both => related both.1, if_neg related]
        exact .inr ⟨silent.snoc fun also => absurd also related, rfl⟩

theorem committedFor_listed (e : Edge) (members : List (RelationId × Policy Custom)) :
    Policy.committedFor e (listed members) = listed (members.map (told e)) := by
  induction members using List.reverseRecOn with
  | nil => rfl
  | append_singleton members x ih =>
    rw [listed_append_singleton, Dispatch.committedFor_addTo, ih, List.map_append,
      List.map_singleton, listed_append_singleton, told]
    split <;> rfl

theorem clearEach_listed (members : List (RelationId × Policy Custom)) :
    Policy.clearEach (listed members) = listed (members.map fun x => (x.1, x.2.clear)) := by
  induction members using List.reverseRecOn with
  | nil => rfl
  | append_singleton members x ih =>
    rw [listed_append_singleton, Dispatch.clearEach_addTo, ih, List.map_append, List.map_singleton,
      listed_append_singleton]

/-- A call on a dispatch does with the policies what it does with their list. -/
theorem step_dispatch (r : Roster Custom) (operation : Dispatch.Operation Custom) :
    ∃ r', Step r operation (r.dispatch.perform operation).1 r' ∧
      (r.dispatch.perform operation).2 = r'.dispatch := by
  cases operation with
  | add relation p =>
    refine ⟨_, .added relation p, ?_⟩
    rw [dispatch_eq, dispatch_eq, listed_append_singleton]
    rfl
  | decide e score =>
    rcases decideFor_listed e score r.members with
      ⟨before, p, after, split, silent, speaks, stopped⟩ | ⟨silent, passed⟩
    · have performed : r.dispatch.perform (.decide e score) = (some (p.decide e score).1,
          Roster.dispatch { r with
            members := before.map (asked e score) ++ (e.relation, (p.decide e score).2) :: after })
          := by
        rw [dispatch_eq, dispatch_eq, Dispatch.perform, Dispatch.decide_of_speaks stopped speaks]
      rw [performed]
      exact ⟨_, .answered split silent speaks, rfl⟩
    · have performed : r.dispatch.perform (.decide e score) =
          (some (r.fallback.decide e score).1, Roster.dispatch
            ⟨r.members.map (asked e score), (r.fallback.decide e score).2⟩) := by
        rw [dispatch_eq, dispatch_eq, Dispatch.perform, Dispatch.decide_of_silent passed]
      rw [performed]
      exact ⟨_, .passed silent, rfl⟩
  | committed e =>
    refine ⟨_, .noted e, ?_⟩
    rw [dispatch_eq, dispatch_eq, ← committedFor_listed]
    rfl
  | clear =>
    refine ⟨_, .cleared, ?_⟩
    rw [dispatch_eq, dispatch_eq, ← clearEach_listed]
    rfl

theorem run_dispatch (r : Roster Custom) (operations : List (Dispatch.Operation Custom)) :
    ∃ r', Run r operations (r.dispatch.performAll operations).1 r' ∧
      (r.dispatch.performAll operations).2 = r'.dispatch := by
  induction operations generalizing r with
  | nil => exact ⟨r, .nil r, rfl⟩
  | cons operation rest ih =>
    obtain ⟨r', step, next⟩ := r.step_dispatch operation
    obtain ⟨r'', run, last⟩ := ih r'
    rw [← next] at run last
    exact ⟨r'', .cons step run, last⟩

end Roster

/-- Calls on a dispatch, from the first on, answer what the list of the policies that were added
answers, and leave the policies in the states in which they leave those of the list. -/
theorem Dispatch.performAll_ofFallback (fallback : Policy Custom)
    (operations : List (Dispatch.Operation Custom)) :
    ∃ r, Roster.Run ⟨[], fallback⟩ operations ((ofFallback fallback).performAll operations).1 r ∧
      ((ofFallback fallback).performAll operations).2 = r.dispatch :=
  Roster.run_dispatch ⟨[], fallback⟩ operations

end ScoredChaining
