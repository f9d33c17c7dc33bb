import Mathlib.Data.Set.Basic
import ScoredChaining.Proofs.Decision.Policy

/-!
The group constraint that is asked first about its relation, and the groups that it has recorded.

* `Policy.foremost`: the policy that is asked before the others of a cascade. Deciding, taking note
  of a fact and forgetting reach it as if it stood alone.
* `Dispatch.Records`: a constraint stands foremost for its relation and has recorded these groups.
  Policies that are added later do not change this.
* `Dispatch.Records.committed`, `Dispatch.Records.decide`: what is recorded when a fact is committed
  and when a candidate is decided about.
-/

namespace ScoredChaining

variable {Custom : Type} [Decider Custom]

variable {e : Edge} {score : Float} {r : RelationId}

namespace Policy

/-- The policy that is asked before all others of a cascade. -/
def foremost : Policy Custom → Policy Custom
  | .cascade first _ => first.foremost
  | p => p

theorem foremost_committed (p : Policy Custom) (e : Edge) :
    (p.committed e).foremost = p.foremost.committed e := by
  induction p using inductionOn with
  | cascade first second same _ => simpa only [committed, foremost] using same
  | _ => simp only [committed, foremost]

theorem foremost_decide (p : Policy Custom) (e : Edge) (score : Float) :
    (p.decide e score).2.foremost = (p.foremost.decide e score).2 := by
  induction p using inductionOn with
  | threshold bound relation => rfl
  | group g => rfl
  | custom decider => rfl
  | cascade first second same _ =>
    rw [decide, foremost, ← same]
    generalize first.decide e score = answer
    obtain ⟨_ | _ | answer, first'⟩ := answer <;> rfl
  | unanimous members _ => rfl
  | dispatch byRelation fallback _ _ =>
    change _ = ((Policy.dispatch byRelation fallback).decide e score).2
    rw [decide]
    generalize decideFor e score byRelation = answer
    obtain ⟨_ | _ | answer, byRelation'⟩ := answer <;> rfl

theorem foremost_clear (p : Policy Custom) : p.clear.foremost = p.foremost.clear := by
  induction p using inductionOn with
  | cascade first second same _ => simpa only [clear, foremost] using same
  | _ => simp only [clear, foremost]

/-- An answer of the foremost policy is the answer. -/
theorem decide_of_foremost {p : Policy Custom} {answer : Bool}
    (answers : (p.foremost.decide e score).1 = .ok (some answer)) :
    (p.decide e score).1 = .ok (some answer) := by
  induction p using inductionOn with
  | cascade first second same _ =>
    have here := same answers
    rw [decide]
    generalize first.decide e score = asked at here
    obtain ⟨result, first'⟩ := asked
    obtain rfl : result = .ok (some answer) := here
    rfl
  | _ => exact answers

/-! ### The policy of a relation -/

theorem lookup_committedFor (e : Edge) (byRelation : List (RelationId × Policy Custom))
    (r : RelationId) : (committedFor e byRelation).lookup r =
      if e.relation = r then (byRelation.lookup r).map (committed e) else byRelation.lookup r := by
  induction byRelation with
  | nil => simp [committedFor]
  | cons x rest ih =>
    obtain ⟨relation, member⟩ := x
    rw [committedFor]
    grind

theorem snd_decideFor (e : Edge) (score : Float) (byRelation : List (RelationId × Policy Custom))
    (r : RelationId) : (decideFor e score byRelation).2.lookup r =
      if e.relation = r then (byRelation.lookup r).map fun p => (p.decide e score).2
      else byRelation.lookup r := by
  induction byRelation with
  | nil => simp [decideFor]
  | cons x rest ih =>
    obtain ⟨relation, member⟩ := x
    rw [decideFor]
    grind

theorem fst_decideFor (e : Edge) (score : Float) (byRelation : List (RelationId × Policy Custom)) :
    (decideFor e score byRelation).1 =
      match byRelation.lookup e.relation with
      | none => .ok none
      | some p => (p.decide e score).1 := by
  induction byRelation with
  | nil => rfl
  | cons x rest ih =>
    obtain ⟨relation, member⟩ := x
    rw [decideFor]
    grind

theorem lookup_clearEach (byRelation : List (RelationId × Policy Custom)) (r : RelationId) :
    (clearEach byRelation).lookup r = (byRelation.lookup r).map clear := by
  induction byRelation with
  | nil => rfl
  | cons x rest ih =>
    obtain ⟨relation, member⟩ := x
    rw [clearEach]
    grind

end Policy

/-! ### What a group constraint records -/

namespace Group

variable {g : Group}

/-- The groups of the facts of the constraint's relation among these. -/
def keysOf (g : Group) (edges : Set Edge) : Set GroupKey :=
  {k | ∃ edge ∈ edges, edge.relation = g.relation ∧ g.key edge = k}

theorem mem_keysOf_union {keys : Set GroupKey} {k : GroupKey} :
    k ∈ keys ∪ g.keysOf {e} ↔ (e.relation = g.relation ∧ k = g.key e) ∨ k ∈ keys := by
  rw [Set.mem_union, or_comm]
  constructor
  · rintro (⟨_, rfl, related, rfl⟩ | old)
    · exact .inl ⟨related, rfl⟩
    · exact .inr old
  · rintro (⟨related, rfl⟩ | old)
    · exact .inl ⟨e, rfl, related, rfl⟩
    · exact .inr old

theorem mem_record {k k' : GroupKey} : k' ∈ (g.record k).seen ↔ k' = k ∨ k' ∈ g.seen := by
  unfold record
  split
  · rename_i known
    have known : k ∈ g.seen := by simpa using known
    constructor
    · exact .inr
    · rintro (rfl | old)
      · exact known
      · exact old
  · exact List.mem_cons

/-- A constraint that differs in what it has recorded only has the same keys. -/
theorem same_of_clear {h : Group} (same : h.clear = g.clear) :
    h.mode = g.mode ∧ h.relation = g.relation ∧ ∀ e, h.key e = g.key e := by
  simp only [clear, mk.injEq] at same
  obtain ⟨mode, relation, keyArgs, _⟩ := same
  exact ⟨mode, relation, fun e => by rw [key, key, keyArgs]⟩

/-- Facts of other relations are not noted. -/
theorem committed_of_other (other : e.relation ≠ g.relation) : g.committed e = g := by
  simp [committed, other]

/-- Candidates of other relations are not decided about. -/
theorem decide_of_other (other : e.relation ≠ g.relation) : g.decide e = (none, g) := by
  rw [decide, if_pos other]

theorem committed_of_atMostOne (mode : g.mode = .atMostOne) (related : e.relation = g.relation) :
    g.committed e = g.record (g.key e) := by
  simp [committed, mode, related]

theorem committed_of_ne (mode : g.mode ≠ .atMostOne) (e : Edge) : g.committed e = g := by
  simp [committed, mode]

theorem snd_decide_of_atMostOne (mode : g.mode = .atMostOne) (e : Edge) : (g.decide e).2 = g := by
  by_cases related : e.relation = g.relation
  · simp [decide, mode, related]
  · rw [decide_of_other related]

/-- Candidates of a recorded group are refused. -/
theorem decide_of_mem (related : e.relation = g.relation) (known : g.key e ∈ g.seen) :
    (g.decide e).1 = some false := by
  cases mode : g.mode <;> simp [decide, mode, related, known]

theorem decide_of_ne (mode : g.mode ≠ .atMostOne) (related : e.relation = g.relation) :
    g.decide e = (some (!g.seen.contains (g.key e)), g.record (g.key e)) := by
  rw [decide, if_neg (by simp [related])]
  cases shape : g.mode <;> simp_all

end Group

namespace Dispatch

variable {d : Dispatch Custom} {g : Group} {keys : Set GroupKey}

/-- The constraint is asked before all other policies of its relation. -/
def Leads (d : Dispatch Custom) (g : Group) : Prop :=
  ∃ p, d.get? g.relation = some p ∧ p.foremost = .group g

/-- The constraint is asked first about its relation, and has recorded these groups. -/
def Records (d : Dispatch Custom) (g : Group) (keys : Set GroupKey) : Prop :=
  ∃ h : Group, h.clear = g.clear ∧ d.Leads h ∧ ∀ k, k ∈ h.seen ↔ k ∈ keys

/-! ### Other policies -/

omit [Decider Custom] in
theorem lookup_addTo (relation : RelationId) (p : Policy Custom)
    (byRelation : List (RelationId × Policy Custom))
    (r : RelationId) : (addTo relation p byRelation).lookup r =
      if r = relation then
        some ((byRelation.lookup r).elim p fun existing => .cascade existing p)
      else byRelation.lookup r := by
  induction byRelation with
  | nil => grind [addTo]
  | cons x rest ih =>
    obtain ⟨relation', existing⟩ := x
    rw [addTo]
    grind

omit [Decider Custom] in
/-- The first policy of a relation stands foremost. -/
theorem leads_add (first : d.get? g.relation = none) :
    (d.add g.relation (.group g)).Leads g := by
  refine ⟨.group g, ?_, rfl⟩
  rw [get?] at first
  rw [get?, add, lookup_addTo, if_pos rfl, first, Option.elim_none]

omit [Decider Custom] in
theorem Leads.add (leads : d.Leads g) (relation : RelationId) (p : Policy Custom) :
    (d.add relation p).Leads g := by
  obtain ⟨q, found, foremost⟩ := leads
  rw [get?] at found
  rw [Leads, get?, Dispatch.add, lookup_addTo, found]
  split
  · exact ⟨.cascade q p, rfl, foremost⟩
  · exact ⟨q, rfl, foremost⟩

omit [Decider Custom] in
theorem Leads.setFallback (leads : d.Leads g) (fallback : Policy Custom) :
    (d.setFallback fallback).Leads g :=
  leads

/-! ### Taking note, deciding and forgetting -/

theorem Leads.committed (leads : d.Leads g) (edge : Edge) :
    (d.committed edge).Leads (g.committed edge) := by
  obtain ⟨p, found, foremost⟩ := leads
  rw [get?] at found
  rw [Leads, (Group.same_of_clear (g.clear_committed edge)).2.1, get?, Dispatch.committed,
    Policy.lookup_committedFor, found]
  split
  · refine ⟨p.committed edge, rfl, ?_⟩
    rw [Policy.foremost_committed, foremost, Policy.committed]
  · rename_i other
    exact ⟨p, rfl, by rw [Group.committed_of_other other, foremost]⟩

theorem byRelation_decide (d : Dispatch Custom) (e : Edge) (score : Float) :
    (d.decide e score).2.byRelation = (Policy.decideFor e score d.byRelation).2 := by
  rw [decide]
  generalize Policy.decideFor e score d.byRelation = answer
  obtain ⟨_ | _ | _, byRelation⟩ := answer <;> rfl

theorem Leads.decide (leads : d.Leads g) (edge : Edge) (score : Float) :
    (d.decide edge score).2.Leads (g.decide edge).2 := by
  obtain ⟨p, found, foremost⟩ := leads
  rw [get?] at found
  rw [Leads, (Group.same_of_clear (g.clear_decide edge)).2.1, get?, byRelation_decide,
    Policy.snd_decideFor, found]
  split
  · refine ⟨(p.decide edge score).2, rfl, ?_⟩
    rw [Policy.foremost_decide, foremost, Policy.decide]
  · rename_i other
    exact ⟨p, rfl, by rw [Group.decide_of_other other, foremost]⟩

theorem Leads.clear (leads : d.Leads g) : d.clear.Leads g.clear := by
  obtain ⟨p, found, foremost⟩ := leads
  rw [get?] at found
  refine ⟨p.clear, ?_, ?_⟩
  · rw [get?, Dispatch.clear, Policy.lookup_clearEach]
    exact congrArg (Option.map Policy.clear) found
  · rw [Policy.foremost_clear, foremost, Policy.clear]

/-- What the constraint answers about a candidate of its relation is the answer. -/
theorem Leads.answer (leads : d.Leads g) {edge : Edge} (related : edge.relation = g.relation)
    {answer : Bool} (answers : (g.decide edge).1 = some answer) (score : Float) :
    (d.decide edge score).1 = .ok (some answer) := by
  obtain ⟨p, found, foremost⟩ := leads
  rw [get?, ← related] at found
  have asked : (p.decide edge score).1 = .ok (some answer) := by
    apply Policy.decide_of_foremost
    rw [foremost, Policy.decide]
    exact congrArg Except.ok answers
  have first := Policy.fst_decideFor edge score d.byRelation
  rw [found] at first
  simp only [asked] at first
  rw [Dispatch.decide]
  generalize Policy.decideFor edge score d.byRelation = result at first
  obtain ⟨result, byRelation⟩ := result
  obtain rfl : result = .ok (some answer) := first
  rfl

namespace Records

omit [Decider Custom] in
theorem of_leads (leads : d.Leads g) (fresh : g.seen = []) : d.Records g ∅ :=
  ⟨g, rfl, leads, by simp [fresh]⟩

omit [Decider Custom] in
theorem add (records : d.Records g keys) (relation : RelationId) (p : Policy Custom) :
    (d.add relation p).Records g keys := by
  obtain ⟨h, same, leads, recorded⟩ := records
  exact ⟨h, same, leads.add relation p, recorded⟩

omit [Decider Custom] in
theorem setFallback (records : d.Records g keys) (fallback : Policy Custom) :
    (d.setFallback fallback).Records g keys := by
  obtain ⟨h, same, leads, recorded⟩ := records
  exact ⟨h, same, leads.setFallback fallback, recorded⟩

theorem clear (records : d.Records g keys) : d.clear.Records g ∅ := by
  obtain ⟨h, same, leads, _⟩ := records
  exact ⟨h.clear, same, leads.clear, by simp [Group.clear]⟩

/-- Where a group may have one fact at most, the group of a committed fact is recorded. -/
theorem committed (records : d.Records g keys) (mode : g.mode = .atMostOne) (edge : Edge) :
    (d.committed edge).Records g (keys ∪ g.keysOf {edge}) := by
  obtain ⟨h, same, leads, recorded⟩ := records
  obtain ⟨sameMode, sameRelation, sameKey⟩ := Group.same_of_clear same
  refine ⟨h.committed edge, (h.clear_committed edge).trans same, leads.committed edge, fun k => ?_⟩
  by_cases related : edge.relation = g.relation
  · rw [Group.committed_of_atMostOne (sameMode.trans mode) (related.trans sameRelation.symm),
      Group.mem_record, recorded, sameKey, Group.mem_keysOf_union]
    simp [related]
  · rw [Group.committed_of_other (sameRelation ▸ related), recorded, Group.mem_keysOf_union]
    simp [related]

/-- Where a group must have a fact, commits are not noted. -/
theorem committed_of_ne (records : d.Records g keys) (mode : g.mode ≠ .atMostOne) (edge : Edge) :
    (d.committed edge).Records g keys := by
  obtain ⟨h, same, leads, recorded⟩ := records
  have noted := leads.committed edge
  rw [Group.committed_of_ne ((Group.same_of_clear same).1 ▸ mode)] at noted
  exact ⟨h, same, noted, recorded⟩

/-- Where a group may have one fact at most, deciding records nothing. -/
theorem decide (records : d.Records g keys) (mode : g.mode = .atMostOne) (edge : Edge)
    (score : Float) : (d.decide edge score).2.Records g keys := by
  obtain ⟨h, same, leads, recorded⟩ := records
  have asked := leads.decide edge score
  rw [Group.snd_decide_of_atMostOne ((Group.same_of_clear same).1.trans mode)] at asked
  exact ⟨h, same, asked, recorded⟩

/-- Where a group must have a fact, the group of every candidate is recorded. -/
theorem decide_of_ne (records : d.Records g keys) (mode : g.mode ≠ .atMostOne) (edge : Edge)
    (score : Float) : (d.decide edge score).2.Records g (keys ∪ g.keysOf {edge}) := by
  obtain ⟨h, same, leads, recorded⟩ := records
  obtain ⟨sameMode, sameRelation, sameKey⟩ := Group.same_of_clear same
  refine ⟨(h.decide edge).2, (h.clear_decide edge).trans same, leads.decide edge score, fun k => ?_⟩
  by_cases related : edge.relation = g.relation
  · rw [Group.decide_of_ne (sameMode ▸ mode) (related.trans sameRelation.symm),
      Group.mem_record, recorded, sameKey, Group.mem_keysOf_union]
    simp [related]
  · rw [Group.decide_of_other (sameRelation ▸ related), recorded, Group.mem_keysOf_union]
    simp [related]

/-- Candidates of a recorded group are refused. -/
theorem refuses (records : d.Records g keys) {edge : Edge} (related : edge.relation = g.relation)
    (known : g.key edge ∈ keys) (score : Float) : (d.decide edge score).1 = .ok (some false) := by
  obtain ⟨h, same, leads, recorded⟩ := records
  obtain ⟨_, sameRelation, sameKey⟩ := Group.same_of_clear same
  have related : edge.relation = h.relation := related.trans sameRelation.symm
  refine leads.answer related (Group.decide_of_mem related ?_) score
  rw [sameKey]
  exact (recorded _).mpr known

/-- Where a group must have a fact, the first candidate of a group is accepted. -/
theorem accepts (records : d.Records g keys) (mode : g.mode ≠ .atMostOne) {edge : Edge}
    (related : edge.relation = g.relation) (new : g.key edge ∉ keys) (score : Float) :
    (d.decide edge score).1 = .ok (some true) := by
  obtain ⟨h, same, leads, recorded⟩ := records
  obtain ⟨sameMode, sameRelation, sameKey⟩ := Group.same_of_clear same
  have related : edge.relation = h.relation := related.trans sameRelation.symm
  refine leads.answer related ?_ score
  rw [Group.decide_of_ne (sameMode ▸ mode) related, sameKey]
  simp [recorded, new]

end Records

end Dispatch

end ScoredChaining
