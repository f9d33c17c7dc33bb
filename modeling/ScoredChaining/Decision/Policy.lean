import ScoredChaining.Decision.Group
import ScoredChaining.Decimal.Layout

/-!
Policies: who decides whether a candidate is committed.

A policy accepts a candidate, refuses it, or has nothing to say about it. Policies are put
together: one asks another where it has nothing to say, a committee must agree, and a dispatch asks
the policy of the candidate's relation first. Deciding may change what a policy has recorded, also
when it fails.

Policies of a custom kind may be put together with these; they decide as they like (`Decider`).
There are none of them unless their type is given.
-/

namespace ScoredChaining

/-- How policies of a custom kind decide, and what they record. -/
class Decider (Custom : Type) where
  /-- A short description. -/
  describe : Custom → String
  /-- The answer about a candidate with this score. -/
  decide (e : Edge) (score : Float) : Custom → Except DecisionError (Option Bool) × Custom
  /-- Takes note of a committed fact. -/
  committed (e : Edge) : Custom → Custom := id
  /-- Forgets what was recorded. -/
  clear : Custom → Custom := id

@[default_instance]
instance : Decider Empty where
  describe := nofun
  decide _ _ := nofun

/-- A way to decide about candidates, with what it has recorded. -/
inductive Policy (Custom : Type := Empty) where
  /-- Accepts the scores above a bound, of one relation if one is given. -/
  | threshold (bound : Float) (relation : Option RelationId)
  | group (g : Group)
  /-- Asks the first and, if it has nothing to say, the second. -/
  | cascade (first second : Policy Custom)
  /-- Asks every member, and fails if two of them answer differently. -/
  | unanimous (members : List (Policy Custom))
  /-- Asks the policy of the candidate's relation and, if there is none or it has nothing to say,
  the fallback. -/
  | dispatch (byRelation : List (RelationId × Policy Custom)) (fallback : Policy Custom)
  /-- Decides in a way of its own. -/
  | custom (decider : Custom)
  deriving Repr, Inhabited

variable {Custom : Type} [Decider Custom]

namespace Policy

mutual

/-- A short description. -/
def describe : Policy Custom → String
  | .threshold bound none => "score > " ++ Decimal.Layout.plain.render bound
  | .threshold bound (some relation) =>
    "score > " ++ Decimal.Layout.plain.render bound ++ " for " ++ relation.text
  | .group g => g.label
  | .cascade first second => first.describe ++ " then " ++ second.describe
  | .unanimous members => "unanimous(" ++ ", ".intercalate (describeAll members) ++ ")"
  | .dispatch byRelation fallback =>
    "dispatch(" ++ toString byRelation.length ++ " relations, default " ++ fallback.describe ++ ")"
  | .custom decider => Decider.describe decider

/-- The descriptions of the policies. -/
def describeAll : List (Policy Custom) → List String
  | [] => []
  | p :: rest => p.describe :: describeAll rest

end

mutual

/-- The answer about a candidate with this score. -/
def decide (e : Edge) (score : Float) :
    Policy Custom → Except DecisionError (Option Bool) × Policy Custom
  | .threshold bound relation =>
    let applies := relation.all (· == e.relation)
    (.ok (if applies then some (bound < score) else none), .threshold bound relation)
  | .group g =>
    let (answer, g) := g.decide e
    (.ok answer, .group g)
  | .cascade first second =>
    match first.decide e score with
    | (.error failure, first) => (.error failure, .cascade first second)
    | (.ok (some answer), first) => (.ok (some answer), .cascade first second)
    | (.ok none, first) =>
      let (answer, second) := second.decide e score
      (answer, .cascade first second)
  | .unanimous members =>
    let (answer, members) := decideAll e score none members
    (answer, .unanimous members)
  | .dispatch byRelation fallback =>
    match decideFor e score byRelation with
    | (.error failure, byRelation) => (.error failure, .dispatch byRelation fallback)
    | (.ok (some answer), byRelation) => (.ok (some answer), .dispatch byRelation fallback)
    | (.ok none, byRelation) =>
      let (answer, fallback) := fallback.decide e score
      (answer, .dispatch byRelation fallback)
  | .custom decider =>
    let (answer, decider) := Decider.decide e score decider
    (answer, .custom decider)

/-- The common answer of the members, given the answer so far and who gave it. The members after
one that disagrees are not asked. -/
def decideAll (e : Edge) (score : Float) (agreed : Option (Bool × String)) :
    List (Policy Custom) → Except DecisionError (Option Bool) × List (Policy Custom)
  | [] => (.ok (agreed.map Prod.fst), [])
  | member :: rest =>
    match member.decide e score with
    | (.error failure, member) => (.error failure, member :: rest)
    | (.ok none, member) =>
      let (answer, rest) := decideAll e score agreed rest
      (answer, member :: rest)
    | (.ok (some answer), member) =>
      match agreed with
      | none =>
        let (common, rest) := decideAll e score (some (answer, member.describe)) rest
        (common, member :: rest)
      | some (first, speaker) =>
        if first = answer then
          let (common, rest) := decideAll e score agreed rest
          (common, member :: rest)
        else (.error (.disagreement e speaker first member.describe answer), member :: rest)

/-- The answer of the policy of the candidate's relation. -/
def decideFor (e : Edge) (score : Float) : List (RelationId × Policy Custom) →
    Except DecisionError (Option Bool) × List (RelationId × Policy Custom)
  | [] => (.ok none, [])
  | (relation, member) :: rest =>
    if relation = e.relation then
      let (answer, member) := member.decide e score
      (answer, (relation, member) :: rest)
    else
      let (answer, rest) := decideFor e score rest
      (answer, (relation, member) :: rest)

end

mutual

/-- Takes note of a committed fact. -/
def committed (e : Edge) : Policy Custom → Policy Custom
  | .threshold bound relation => .threshold bound relation
  | .group g => .group (g.committed e)
  | .cascade first second => .cascade (first.committed e) (second.committed e)
  | .unanimous members => .unanimous (committedAll e members)
  | .dispatch byRelation fallback =>
    .dispatch (committedFor e byRelation) (fallback.committed e)
  | .custom decider => .custom (Decider.committed e decider)

/-- Every member takes note of a committed fact. -/
def committedAll (e : Edge) : List (Policy Custom) → List (Policy Custom)
  | [] => []
  | member :: rest => member.committed e :: committedAll e rest

/-- The policy of the fact's relation takes note of it. -/
def committedFor (e : Edge) :
    List (RelationId × Policy Custom) → List (RelationId × Policy Custom)
  | [] => []
  | (relation, member) :: rest =>
    if relation = e.relation then (relation, member.committed e) :: rest
    else (relation, member) :: committedFor e rest

end

mutual

/-- Forgets what was recorded. -/
def clear : Policy Custom → Policy Custom
  | .threshold bound relation => .threshold bound relation
  | .group g => .group g.clear
  | .cascade first second => .cascade first.clear second.clear
  | .unanimous members => .unanimous (clearAll members)
  | .dispatch byRelation fallback => .dispatch (clearEach byRelation) fallback.clear
  | .custom decider => .custom (Decider.clear decider)

/-- Every member forgets. -/
def clearAll : List (Policy Custom) → List (Policy Custom)
  | [] => []
  | member :: rest => member.clear :: clearAll rest

/-- The policy of every relation forgets. -/
def clearEach : List (RelationId × Policy Custom) → List (RelationId × Policy Custom)
  | [] => []
  | (relation, member) :: rest => (relation, member.clear) :: clearEach rest

end

end Policy

/-- The policies of the relations that have one, and the policy for the rest. -/
structure Dispatch (Custom : Type := Empty) where
  byRelation : List (RelationId × Policy Custom)
  fallback : Policy Custom
  deriving Repr, Inhabited

namespace Dispatch

/-- No relation has a policy of its own. -/
def ofFallback (fallback : Policy Custom) : Dispatch Custom :=
  ⟨[], fallback⟩

/-- The dispatch as a policy. -/
def toPolicy (d : Dispatch Custom) : Policy Custom :=
  .dispatch d.byRelation d.fallback

/-- Adds a policy for a relation to the list. -/
def addTo (relation : RelationId) (p : Policy Custom) :
    List (RelationId × Policy Custom) → List (RelationId × Policy Custom)
  | [] => [(relation, p)]
  | (r, existing) :: rest =>
    if r = relation then (r, .cascade existing p) :: rest
    else (r, existing) :: addTo relation p rest

/-- Adds a policy for a relation. A policy that the relation has already is asked first. -/
def add (d : Dispatch Custom) (relation : RelationId) (p : Policy Custom) : Dispatch Custom :=
  { d with byRelation := addTo relation p d.byRelation }

/-- Replaces the policy for the rest. -/
def setFallback (d : Dispatch Custom) (fallback : Policy Custom) : Dispatch Custom :=
  { d with fallback }

/-- The policy of a relation. -/
def get? (d : Dispatch Custom) (relation : RelationId) : Option (Policy Custom) :=
  d.byRelation.lookup relation

/-- The answer about a candidate with this score. -/
def decide (d : Dispatch Custom) (e : Edge) (score : Float) :
    Except DecisionError (Option Bool) × Dispatch Custom :=
  match Policy.decideFor e score d.byRelation with
  | (.error failure, byRelation) => (.error failure, { d with byRelation })
  | (.ok (some answer), byRelation) => (.ok (some answer), { d with byRelation })
  | (.ok none, byRelation) =>
    let (answer, fallback) := d.fallback.decide e score
    (answer, ⟨byRelation, fallback⟩)

/-- Takes note of a committed fact. -/
def committed (d : Dispatch Custom) (e : Edge) : Dispatch Custom :=
  ⟨Policy.committedFor e d.byRelation, d.fallback.committed e⟩

/-- Forgets what was recorded. -/
def clear (d : Dispatch Custom) : Dispatch Custom :=
  ⟨Policy.clearEach d.byRelation, d.fallback.clear⟩

end Dispatch

end ScoredChaining
