import ScoredChaining.Decision.Policy
import ScoredChaining.Proofs.Graph.Names

/-!
How policies fail, and what deciding leaves of what they have recorded.

* `Policy.Part`: the policies that a policy is put together from.
* `Policy.decide_error`: a policy fails only when two members of a committee that is part of it give
  different answers.
* `Policy.clear_decide`, `Policy.clear_committed`: what a policy records is forgotten when it is
  cleared, whatever it has decided or taken note of.
-/

namespace ScoredChaining

namespace Group

/-- Nothing remains of a decision when the constraint is cleared. -/
theorem clear_decide (g : Group) (e : Edge) : (g.decide e).2.clear = g.clear := by
  unfold decide record clear
  grind

/-- Nothing remains of a note of a committed fact when the constraint is cleared. -/
theorem clear_committed (g : Group) (e : Edge) : (g.committed e).clear = g.clear := by
  unfold committed record clear
  grind

end Group

namespace Policy

/-- Induction over a policy, with the hypothesis for every member of a committee and for the policy
of every relation. -/
@[elab_as_elim]
theorem inductionOn {Custom : Type} {P : Policy Custom → Prop} (p : Policy Custom)
    (threshold : ∀ bound relation, P (.threshold bound relation)) (group : ∀ g, P (.group g))
    (cascade : ∀ first second, P first → P second → P (.cascade first second))
    (unanimous : ∀ members, (∀ m ∈ members, P m) → P (.unanimous members))
    (dispatch : ∀ byRelation fallback, (∀ x ∈ byRelation, P x.2) → P fallback →
      P (.dispatch byRelation fallback))
    (custom : ∀ decider, P (.custom decider)) : P p := by
  apply Policy.rec (motive_1 := P) (motive_2 := fun members => ∀ m ∈ members, P m)
    (motive_3 := fun byRelation => ∀ x ∈ byRelation, P x.2) (motive_4 := fun x => P x.2)
  case threshold => exact threshold
  case group => exact group
  case cascade => exact cascade
  case unanimous => exact unanimous
  case dispatch => exact dispatch
  case custom => exact custom
  case nil => simp
  case cons => exact fun m rest first others => List.forall_mem_cons.mpr ⟨first, others⟩
  case nil => simp
  case cons => exact fun x rest first others => List.forall_mem_cons.mpr ⟨first, others⟩
  case mk => exact fun _ _ holds => holds

/-- The first policy is the second or one of those that it is put together from. -/
inductive Part : Policy → Policy → Prop where
  | refl (p : Policy) : Part p p
  | first {p a b : Policy} : Part p a → Part p (.cascade a b)
  | second {p a b : Policy} : Part p b → Part p (.cascade a b)
  | member {p m : Policy} {members : List Policy} :
    m ∈ members → Part p m → Part p (.unanimous members)
  | relation {p : Policy} {x : RelationId × Policy} {byRelation : List (RelationId × Policy)}
    {fallback : Policy} : x ∈ byRelation → Part p x.2 → Part p (.dispatch byRelation fallback)
  | fallback {p fallback : Policy} {byRelation : List (RelationId × Policy)} :
    Part p fallback → Part p (.dispatch byRelation fallback)

/-! ### Forgetting -/

theorem clearAll_eq_map (members : List Policy) : clearAll members = members.map clear := by
  induction members with
  | nil => rfl
  | cons m rest ih => rw [clearAll, ih, List.map_cons]

theorem clearEach_eq_map (byRelation : List (RelationId × Policy)) :
    clearEach byRelation = byRelation.map fun x => (x.1, x.2.clear) := by
  induction byRelation with
  | nil => rfl
  | cons x rest ih => rw [clearEach, ih, List.map_cons]

theorem clearAll_decideAll {e : Edge} {score : Float} {members : List Policy}
    (kept : ∀ m ∈ members, (m.decide e score).2.clear = m.clear)
    (agreed : Option (Bool × String)) :
    clearAll (decideAll e score agreed members).2 = clearAll members := by
  induction members generalizing agreed with
  | nil => rfl
  | cons m rest ih =>
    obtain ⟨keptFirst, keptRest⟩ := List.forall_mem_cons.mp kept
    rw [decideAll]
    generalize m.decide e score = answer at keptFirst
    obtain ⟨_ | _ | answer, m'⟩ := answer
    · rw [clearAll, keptFirst, clearAll]
    · rw [clearAll, keptFirst, ih keptRest, clearAll]
    · match agreed with
      | none => rw [clearAll, keptFirst, ih keptRest, clearAll]
      | some (first, speaker) =>
        simp only
        split <;> simp [clearAll, keptFirst, ih keptRest]

theorem clearEach_decideFor {e : Edge} {score : Float} {byRelation : List (RelationId × Policy)}
    (kept : ∀ x ∈ byRelation, (x.2.decide e score).2.clear = x.2.clear) :
    clearEach (decideFor e score byRelation).2 = clearEach byRelation := by
  induction byRelation with
  | nil => rfl
  | cons x rest ih =>
    obtain ⟨keptFirst, keptRest⟩ := List.forall_mem_cons.mp kept
    rw [decideFor]
    split <;> simp [clearEach, keptFirst, ih keptRest]

/-- Nothing remains of a decision when the policy is cleared. -/
theorem clear_decide (p : Policy) (e : Edge) (score : Float) :
    (p.decide e score).2.clear = p.clear := by
  induction p using inductionOn with
  | threshold bound relation => rfl
  | group g => simp only [decide, clear, g.clear_decide]
  | custom decider => exact nomatch decider
  | cascade first second keptFirst keptSecond =>
    rw [decide]
    generalize first.decide e score = answer at keptFirst
    obtain ⟨_ | _ | answer, first'⟩ := answer <;> simp [clear, keptFirst, keptSecond]
  | unanimous members kept => simp only [decide, clear, clearAll_decideAll kept]
  | dispatch byRelation fallback kept keptFallback =>
    have keptEach := clearEach_decideFor kept
    rw [decide]
    generalize decideFor e score byRelation = answer at keptEach
    obtain ⟨_ | _ | answer, byRelation'⟩ := answer <;> simp [clear, keptEach, keptFallback]

/-- Nothing remains of a note of a committed fact when the policy is cleared. -/
theorem clear_committed (p : Policy) (e : Edge) : (p.committed e).clear = p.clear := by
  induction p using inductionOn with
  | threshold bound relation => rfl
  | group g => simp only [committed, clear, g.clear_committed]
  | custom decider => exact nomatch decider
  | cascade first second keptFirst keptSecond => simp [committed, clear, keptFirst, keptSecond]
  | unanimous members kept =>
    have keptAll : clearAll (committedAll e members) = clearAll members := by
      induction members with
      | nil => rfl
      | cons m rest ih =>
        obtain ⟨keptFirst, keptRest⟩ := List.forall_mem_cons.mp kept
        simp [committedAll, clearAll, keptFirst, ih keptRest]
    simp only [committed, clear, keptAll]
  | dispatch byRelation fallback kept keptFallback =>
    have keptEach : clearEach (committedFor e byRelation) = clearEach byRelation := by
      induction byRelation with
      | nil => rfl
      | cons x rest ih =>
        obtain ⟨keptFirst, keptRest⟩ := List.forall_mem_cons.mp kept
        rw [committedFor]
        split <;> simp [clearEach, keptFirst, ih keptRest]
    simp only [committed, clear, keptEach, keptFallback]

theorem clear_clear (p : Policy) : p.clear.clear = p.clear := by
  induction p using inductionOn with
  | threshold bound relation => rfl
  | group g => rfl
  | custom decider => exact nomatch decider
  | cascade first second keptFirst keptSecond => simp [clear, keptFirst, keptSecond]
  | unanimous members kept =>
    simpa [clear, clearAll_eq_map] using kept
  | dispatch byRelation fallback kept keptFallback =>
    simpa [clear, clearEach_eq_map, keptFallback] using fun r m mem => kept (r, m) mem

/-- A description does not depend on what was recorded. -/
theorem describe_clear (p : Policy) : p.clear.describe = p.describe := by
  induction p using inductionOn with
  | threshold bound relation => rfl
  | group g => rfl
  | custom decider => exact nomatch decider
  | cascade first second sameFirst sameSecond => simp [clear, describe, sameFirst, sameSecond]
  | unanimous members same =>
    have sameAll : describeAll (clearAll members) = describeAll members := by
      induction members with
      | nil => rfl
      | cons m rest ih =>
        obtain ⟨sameFirst, sameRest⟩ := List.forall_mem_cons.mp same
        simp [clearAll, describeAll, sameFirst, ih sameRest]
    simp only [clear, describe, sameAll]
  | dispatch byRelation fallback _ sameFallback =>
    simp [clear, describe, clearEach_eq_map, sameFallback]

theorem describe_decide (p : Policy) (e : Edge) (score : Float) :
    (p.decide e score).2.describe = p.describe := by
  rw [← describe_clear, clear_decide, describe_clear]

theorem Part.clear {q p : Policy} (part : Part q p) : Part q.clear p.clear := by
  induction part with
  | refl => exact .refl _
  | first _ ih => exact .first ih
  | second _ ih => exact .second ih
  | member mem _ ih =>
    rw [Policy.clear, clearAll_eq_map]
    exact .member (List.mem_map_of_mem mem) ih
  | relation mem _ ih =>
    rw [Policy.clear, clearEach_eq_map]
    exact .relation (List.mem_map.mpr ⟨_, mem, rfl⟩) ih
  | fallback _ ih => exact .fallback ih

theorem exists_part_of_clear {q p : Policy} (part : Part q p.clear) :
    ∃ r, Part r p ∧ r.clear = q := by
  induction p using inductionOn with
  | threshold bound relation => exact ⟨_, .refl _, by cases part; rfl⟩
  | group g => exact ⟨_, .refl _, by cases part; rfl⟩
  | custom decider => exact nomatch decider
  | cascade first second partFirst partSecond =>
    cases part with
    | refl => exact ⟨_, .refl _, rfl⟩
    | first part =>
      obtain ⟨r, part, same⟩ := partFirst part
      exact ⟨r, .first part, same⟩
    | second part =>
      obtain ⟨r, part, same⟩ := partSecond part
      exact ⟨r, .second part, same⟩
  | unanimous members parts =>
    rw [clear, clearAll_eq_map] at part
    cases part with
    | refl => exact ⟨_, .refl _, by rw [clear, clearAll_eq_map]⟩
    | member mem part =>
      obtain ⟨m, listed, rfl⟩ := List.mem_map.mp mem
      obtain ⟨r, part, same⟩ := parts m listed part
      exact ⟨r, .member listed part, same⟩
  | dispatch byRelation fallback parts partFallback =>
    rw [clear, clearEach_eq_map] at part
    cases part with
    | refl => exact ⟨_, .refl _, by rw [clear, clearEach_eq_map]⟩
    | relation mem part =>
      obtain ⟨x, listed, rfl⟩ := List.mem_map.mp mem
      obtain ⟨r, part, same⟩ := parts x listed part
      exact ⟨r, .relation listed part, same⟩
    | fallback part =>
      obtain ⟨r, part, same⟩ := partFallback part
      exact ⟨r, .fallback part, same⟩

/-! ### Failing -/

/-- The failure reports two members that give different answers. -/
def Disagree (e : Edge) (score : Float) (members : List Policy) (failure : DecisionError) : Prop :=
  ∃ first second a b, [first, second].Sublist members ∧
    (first.decide e score).1 = .ok (some a) ∧ (second.decide e score).1 = .ok (some b) ∧ a ≠ b ∧
    failure = .disagreement e first.describe a second.describe b

variable {e : Edge} {score : Float} {failure : DecisionError}

/-- When there is an answer, a committee fails with a member or at one that answers differently. -/
theorem decideAll_some_error {first : Bool} {speaker : String} {members : List Policy}
    (failed : (decideAll e score (some (first, speaker)) members).1 = .error failure) :
    (∃ m ∈ members, (m.decide e score).1 = .error failure) ∨
      ∃ m ∈ members, ∃ b, (m.decide e score).1 = .ok (some b) ∧ first ≠ b ∧
        failure = .disagreement e speaker first m.describe b := by
  induction members with
  | nil => cases failed
  | cons m rest ih =>
    have later : (decideAll e score (some (first, speaker)) rest).1 = .error failure →
        (∃ x ∈ m :: rest, (x.decide e score).1 = .error failure) ∨
          ∃ x ∈ m :: rest, ∃ b, (x.decide e score).1 = .ok (some b) ∧ first ≠ b ∧
            failure = .disagreement e speaker first x.describe b := by
      intro failed
      rcases ih failed with ⟨m, mem, fails⟩ | ⟨m, mem, disagrees⟩
      · exact .inl ⟨m, List.mem_cons_of_mem _ mem, fails⟩
      · exact .inr ⟨m, List.mem_cons_of_mem _ mem, disagrees⟩
    have same := m.describe_decide e score
    have here : m ∈ m :: rest := List.mem_cons_self
    rw [decideAll] at failed
    generalize answers : m.decide e score = answer at failed same
    obtain ⟨_ | _ | b, m'⟩ := answer
    · exact .inl ⟨m, here, by rw [answers]; exact failed⟩
    · exact later failed
    · simp only at failed
      split at failed
      · exact later failed
      · rename_i different
        refine .inr ⟨m, here, b, by rw [answers], different, ?_⟩
        rw [← same]
        exact (Except.error.inj failed).symm

/-- A committee fails with a member, or because two of them disagree. -/
theorem decideAll_none_error {members : List Policy}
    (failed : (decideAll e score none members).1 = .error failure) :
    (∃ m ∈ members, (m.decide e score).1 = .error failure) ∨ Disagree e score members failure := by
  induction members with
  | nil => cases failed
  | cons m rest ih =>
    have same := m.describe_decide e score
    have here : m ∈ m :: rest := List.mem_cons_self
    rw [decideAll] at failed
    generalize answers : m.decide e score = answer at failed same
    obtain ⟨_ | _ | a, m'⟩ := answer
    · exact .inl ⟨m, here, by rw [answers]; exact failed⟩
    · rcases ih failed with ⟨m, mem, fails⟩ | ⟨first, second, a, b, sub, disagree⟩
      · exact .inl ⟨m, List.mem_cons_of_mem _ mem, fails⟩
      · exact .inr ⟨first, second, a, b, sub.cons _, disagree⟩
    · rcases decideAll_some_error failed with ⟨m, mem, fails⟩ | ⟨second, mem, b, asked, ne, is⟩
      · exact .inl ⟨m, List.mem_cons_of_mem _ mem, fails⟩
      · refine .inr ⟨m, second, a, b, ?_, by rw [answers], asked, ne, ?_⟩
        · exact List.cons_sublist_cons.mpr (List.singleton_sublist.mpr mem)
        · rw [is]
          simp only at same
          rw [same]

/-- A dispatch asks the policy of one relation at most. -/
theorem decideFor_error {byRelation : List (RelationId × Policy)}
    (failed : (decideFor e score byRelation).1 = .error failure) :
    ∃ x ∈ byRelation, (x.2.decide e score).1 = .error failure := by
  induction byRelation with
  | nil => cases failed
  | cons x rest ih =>
    rw [decideFor] at failed
    split at failed
    · exact ⟨x, List.mem_cons_self, failed⟩
    · obtain ⟨y, mem, failed⟩ := ih failed
      exact ⟨y, List.mem_cons_of_mem _ mem, failed⟩

/-- A policy fails only because two members of a committee disagree, which is part of the policy. -/
theorem decide_error {p : Policy} (failed : (p.decide e score).1 = .error failure) :
    ∃ members, Part (.unanimous members) p ∧ Disagree e score members failure := by
  induction p using inductionOn with
  | threshold bound relation => cases failed
  | group g => cases failed
  | custom decider => exact nomatch decider
  | cascade first second failsFirst failsSecond =>
    rw [decide] at failed
    generalize first.decide e score = answer at failed failsFirst
    obtain ⟨_ | _ | answer, first'⟩ := answer
    · obtain ⟨members, part, disagree⟩ := failsFirst failed
      exact ⟨members, .first part, disagree⟩
    · obtain ⟨members, part, disagree⟩ := failsSecond failed
      exact ⟨members, .second part, disagree⟩
    · cases failed
  | unanimous members fails =>
    rcases decideAll_none_error failed with ⟨m, mem, failed⟩ | disagree
    · obtain ⟨others, part, disagree⟩ := fails m mem failed
      exact ⟨others, .member mem part, disagree⟩
    · exact ⟨members, .refl _, disagree⟩
  | dispatch byRelation fallback fails failsFallback =>
    rw [decide] at failed
    generalize answers : decideFor e score byRelation = answer at failed
    obtain ⟨_ | _ | answer, byRelation'⟩ := answer
    · have failed : (decideFor e score byRelation).1 = .error failure := by
        rw [answers]
        exact failed
      obtain ⟨x, mem, failed⟩ := decideFor_error failed
      obtain ⟨members, part, disagree⟩ := fails x mem failed
      exact ⟨members, .relation mem part, disagree⟩
    · obtain ⟨members, part, disagree⟩ := failsFallback failed
      exact ⟨members, .fallback part, disagree⟩
    · cases failed

end Policy

/-! ### Keys -/

/-- The group constraint is about a declared relation that has the key arguments. -/
def Group.Keyed (s : Schema) (g : Group) : Prop :=
  ∃ R, s.relation? g.relation = some R ∧ ∀ k ∈ g.keyArgs, k < R.arity

/-- The group constraints of the policy are about declared relations that have their key
arguments. -/
def Policy.Keyed (s : Schema) (p : Policy) : Prop :=
  ∀ g, Part (.group g) p → g.Keyed s

namespace Group

variable {s s' : Schema} {g : Group}

theorem Keyed.mono (extends_ : s.Extends s') (keyed : g.Keyed s) : g.Keyed s' := by
  obtain ⟨R, isR, bound⟩ := keyed
  exact ⟨R, extends_.relation isR, bound⟩

/-- The relation has the key arguments in which no fault is found. -/
theorem lt_arity_of_keyFault? {R : Relation} {earlier keys : List Nat}
    (sound : keyFault? R earlier keys = none) : ∀ k ∈ keys, k < R.arity := by
  induction keys generalizing earlier with
  | nil => simp
  | cons k rest ih =>
    rw [keyFault?] at sound
    split at sound
    · cases sound
    · rename_i bound
      split at sound
      · cases sound
      · exact List.forall_mem_cons.mpr ⟨Nat.lt_of_not_le bound, ih sound⟩

/-- A constraint that is made for a declared relation has its keys there. -/
theorem keyed_of_make {mode : GroupMode} {id : RelationId} {keyArgs : List Nat} {R : Relation}
    (isR : s.relation? id = some R) (made : make mode id keyArgs R = .ok g) : g.Keyed s := by
  unfold make at made
  split at made
  · cases made
  · split at made
    · cases made
    · rename_i sound
      obtain rfl := Except.ok.inj made
      exact ⟨R, isR, lt_arity_of_keyFault? sound⟩

theorem relation?_of_resolveTerm {t : Term} {id : RelationId} {R : Relation}
    (resolved : resolveTerm t s = .ok (id, R)) : s.relation? id = some R := by
  unfold resolveTerm at resolved
  split at resolved
  · cases resolved
  · split at resolved
    · cases resolved
    · rename_i isR
      split at resolved
      · obtain ⟨rfl, rfl⟩ := Prod.mk.inj (Except.ok.inj resolved)
        exact isR
      · cases resolved

/-- The relation of a description is that of its term. -/
theorem exists_resolved_of_readKeys {description : String} {mode : GroupMode} {id : RelationId}
    {R : Relation} {keyArgs : List Nat}
    (isRead : readKeys description s = .ok (mode, id, R, keyArgs)) :
    ∃ t, resolveTerm t s = .ok (id, R) := by
  simp only [readKeys, bind, Except.bind] at isRead
  split at isRead
  · cases isRead
  · split at isRead
    · cases isRead
    · rename_i resolved
      split at isRead
      · cases isRead
      · split at isRead
        · cases isRead
        · simp only [pure, Except.pure, Except.ok.injEq, Prod.mk.injEq] at isRead
          obtain ⟨_, rfl, rfl, _⟩ := isRead
          exact ⟨_, resolved⟩

/-- A constraint that is read has its keys in the schema that it is read for. -/
theorem keyed_of_read {description : String} (isRead : read description s = .ok g) : g.Keyed s := by
  unfold read at isRead
  split at isRead
  · cases isRead
  · rename_i mode id R keyArgs parts
    have isR : s.relation? id = some R := by
      obtain ⟨_, resolved⟩ := exists_resolved_of_readKeys parts
      exact relation?_of_resolveTerm resolved
    cases made : make mode id keyArgs R with
    | error failure => simp [made, Except.map] at isRead
    | ok g' =>
      obtain rfl : { g' with label := Text.trimString description } = g := by
        simpa [made, Except.map] using isRead
      have keyed : g'.Keyed s := keyed_of_make isR made
      exact keyed

/-- A constraint that is read has recorded nothing. -/
theorem clear_of_read {description : String} (isRead : read description s = .ok g) :
    g.clear = g := by
  unfold read make at isRead
  split at isRead
  · cases isRead
  · simp only at isRead
    split at isRead
    · cases isRead
    · split at isRead
      · cases isRead
      · obtain rfl := Except.ok.inj isRead
        rfl

end Group

namespace Policy

variable {s s' : Schema} {p p' : Policy}

theorem Keyed.mono (extends_ : s.Extends s') (keyed : p.Keyed s) : p.Keyed s' :=
  fun g part => (keyed g part).mono extends_

/-- The keys do not depend on what was recorded. -/
theorem Keyed.of_clear (keyed : p.Keyed s) (same : p'.clear = p.clear) : p'.Keyed s := by
  intro g part
  have cleared := part.clear
  rw [same] at cleared
  obtain ⟨r, part, same⟩ := exists_part_of_clear cleared
  cases r <;> simp only [clear, group.injEq, reduceCtorEq] at same
  rename_i g'
  have keyed : g'.clear.Keyed s := keyed g' part
  rw [same] at keyed
  exact keyed

end Policy

namespace Dispatch

/-- The group constraints of the dispatch are about declared relations that have their key
arguments. -/
def Keyed (s : Schema) (d : Dispatch) : Prop :=
  d.toPolicy.Keyed s

variable {s : Schema} {d : Dispatch} {p : Policy}

theorem toPolicy_decide (d : Dispatch) (e : Edge) (score : Float) :
    d.toPolicy.decide e score = ((d.decide e score).1, (d.decide e score).2.toPolicy) := by
  rw [toPolicy, Policy.decide, decide]
  generalize Policy.decideFor e score d.byRelation = answer
  obtain ⟨_ | _ | answer, byRelation⟩ := answer <;> rfl

theorem toPolicy_injective {d d' : Dispatch} (same : d.toPolicy = d'.toPolicy) : d = d' := by
  obtain ⟨byRelation, fallback⟩ := d
  obtain ⟨byRelation', fallback'⟩ := d'
  simpa [toPolicy] using same

theorem clear_decide (d : Dispatch) (e : Edge) (score : Float) :
    (d.decide e score).2.clear = d.clear := by
  apply toPolicy_injective
  have kept := d.toPolicy.clear_decide e score
  rwa [toPolicy_decide] at kept

theorem clear_committed (d : Dispatch) (e : Edge) : (d.committed e).clear = d.clear :=
  toPolicy_injective (d.toPolicy.clear_committed e)

theorem clear_clear (d : Dispatch) : d.clear.clear = d.clear :=
  toPolicy_injective d.toPolicy.clear_clear

theorem clearEach_addTo {Custom : Type} [Decider Custom] (relation : RelationId)
    (p : Policy Custom) (byRelation : List (RelationId × Policy Custom)) :
    Policy.clearEach (addTo relation p byRelation) =
      addTo relation p.clear (Policy.clearEach byRelation) := by
  induction byRelation with
  | nil => rfl
  | cons x rest ih =>
    rw [addTo, Policy.clearEach, addTo]
    split <;> simp [Policy.clearEach, Policy.clear, ih]

theorem clear_add (d : Dispatch) (relation : RelationId) (p : Policy) :
    (d.add relation p).clear = d.clear.add relation p.clear := by
  rw [add, clear, clearEach_addTo, clear, add]

theorem Keyed.of_clear {d' : Dispatch} (keyed : d.Keyed s) (same : d'.clear = d.clear) :
    d'.Keyed s :=
  Policy.Keyed.of_clear keyed (congrArg toPolicy same)

theorem Keyed.setFallback (keyed : d.Keyed s) (keyedP : p.Keyed s) : (d.setFallback p).Keyed s := by
  intro g part
  cases part with
  | relation mem part => exact keyed g (.relation mem part)
  | fallback part => exact keyedP g part

theorem mem_addTo {relation : RelationId} {byRelation : List (RelationId × Policy)}
    {x : RelationId × Policy} (mem : x ∈ addTo relation p byRelation) :
    x ∈ byRelation ∨ x.2 = p ∨ ∃ y ∈ byRelation, x.2 = .cascade y.2 p := by
  induction byRelation with
  | nil => exact .inr (.inl (by simp_all [addTo]))
  | cons y rest ih =>
    rw [addTo] at mem
    split at mem
    · rcases List.mem_cons.mp mem with rfl | mem
      · exact .inr (.inr ⟨y, List.mem_cons_self, rfl⟩)
      · exact .inl (List.mem_cons_of_mem _ mem)
    · rcases List.mem_cons.mp mem with rfl | mem
      · exact .inl List.mem_cons_self
      · rcases ih mem with old | new | ⟨y, mem, same⟩
        · exact .inl (List.mem_cons_of_mem _ old)
        · exact .inr (.inl new)
        · exact .inr (.inr ⟨y, List.mem_cons_of_mem _ mem, same⟩)

theorem Keyed.add (keyed : d.Keyed s) (relation : RelationId) (keyedP : p.Keyed s) :
    (d.add relation p).Keyed s := by
  intro g part
  cases part with
  | relation mem part =>
    rcases mem_addTo mem with old | same | ⟨y, memY, same⟩
    · exact keyed g (.relation old part)
    · exact keyedP g (same ▸ part)
    · rw [same] at part
      cases part with
      | first part => exact keyed g (.relation memY part)
      | second part => exact keyedP g part
  | fallback part => exact keyed g (.fallback part)

end Dispatch

end ScoredChaining
