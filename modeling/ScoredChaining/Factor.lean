import ScoredChaining.Agenda.Basic
import ScoredChaining.Agenda.Priority
import ScoredChaining.Rule.Firing

/-!
Factors: what a committed fact does to the candidates that are still pending.

An exclusion takes the rivals of the fact off the agenda, those of its relation that agree with it
on given arguments. A penalty changes the score of every candidate that shares an argument with
the fact, once, however many they share.
-/

namespace ScoredChaining

/-- A way in which a committed fact changes pending candidates. -/
inductive Factor where
  /-- Removes the candidates of the same relation that agree on these arguments. -/
  | exclusion (keyArgs : List Nat)
  /-- Adds a number to the score of the candidates that touch an argument. -/
  | adjacentPenalty (penalty : Float)
  deriving Repr, Inhabited

namespace Factor

/-- The name of the kind of factor. -/
def name : Factor → String
  | .exclusion _ => "exclusion"
  | .adjacentPenalty _ => "adjacent-penalty"

/-- The fact that completed the pattern: the vertex of the first step onto a fact. -/
def committed? (bindings : List Binding) (g : Graph) : Option Edge := do
  let binding ← bindings.find? fun b =>
    match b.key with
    | .relation _ _ => true
    | _ => false
  let id ← binding.vertex.edge?
  (g.edge id).toOption

/-- The edge is of the relation and has the nodes at the argument positions. -/
def agrees (relation : RelationId) (keyed : List (Nat × NodeId)) (e : Edge) : Bool :=
  e.relation == relation && keyed.all fun (k, n) => e.tail[k]? == some n

/-- Removes those of the candidates that agree with the committed fact. -/
def removeRivals (relation : RelationId) (keyed : List (Nat × NodeId)) (g : Graph) :
    List EdgeId → Agenda → Except AgendaError Unit × Agenda
  | [], a => (.ok (), a)
  | id :: rest, a =>
    match g.edge id with
    | .error _ => removeRivals relation keyed g rest a
    | .ok e =>
      if agrees relation keyed e then
        match a.remove id with
        | (.error failure, a) => (.error failure, a)
        | (.ok _, a) => removeRivals relation keyed g rest a
      else removeRivals relation keyed g rest a

/-- Adds the penalty to the scores of the candidates. -/
def penalize (penalty : Float) (p : Priority) (g : Graph) :
    List EdgeId → Agenda → Except AgendaError Unit × Agenda
  | [], a => (.ok (), a)
  | id :: rest, a =>
    match g.edge id with
    | .error _ => penalize penalty p g rest a
    | .ok e =>
      let update (old : Score) : Score × Double :=
        let score := old.plus (.constant penalty)
        (score, p.of g e score)
      match a.updateScore id update with
      | (.error failure, a) => (.error failure, a)
      | (.ok _, a) => penalize penalty p g rest a

/-- The nodes of a fact at argument positions, if it has all of them. -/
def keyed? (keyArgs : List Nat) (e : Edge) : Option (List (Nat × NodeId)) :=
  keyArgs.mapM fun k => (e.tail[k]?).map fun n => (k, n)

/-- Applies a factor after a pattern was completed. -/
def rescore (f : Factor) (bindings : List Binding) (g : Graph) (p : Priority) (a : Agenda) :
    Except AgendaError Unit × Agenda :=
  match committed? bindings g with
  | none => (.ok (), a)
  | some fact =>
    match f with
    | .exclusion keyArgs =>
      match keyed? keyArgs fact with
      | some (anchor :: others) =>
        removeRivals fact.relation (anchor :: others) g (a.adjacent anchor.2) a
      | _ => (.ok (), a)
    | .adjacentPenalty penalty =>
      penalize penalty p g (ascending (distinct (fact.tail.flatMap a.adjacent))) a

end Factor

end ScoredChaining
