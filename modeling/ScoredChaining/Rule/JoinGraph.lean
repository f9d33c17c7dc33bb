import ScoredChaining.Rule.Term

/-!
The join graph of a rule: its premises on one side, the variables that several premises share on
the other, with a line from a premise to each of these variables in it.

A tour goes through the graph depth first. It enters every vertex that can be reached from the
root once, and leaves it when all its neighbours have been entered; neighbours are tried from the
last to the first.
-/

namespace ScoredChaining

/-- The premises of a rule, and the variables that two or more of them share, in the order in which
they first appear. -/
structure JoinGraph where
  premises : List Term
  joins : List String

/-- A premise or a shared variable, by its number. -/
inductive JoinVertex where
  | premise (index : Nat)
  | join (index : Nat)
  deriving Repr, DecidableEq, Inhabited

/-- A step of a tour. -/
inductive TourStep where
  | enter (parent child : JoinVertex)
  | leave (vertex : JoinVertex)
  deriving Repr, DecidableEq

namespace JoinGraph

/-- The premises with the variable in them. -/
def holders (premises : List Term) (name : String) : List Term :=
  premises.filter fun t => t.vars.contains name

/-- The join graph of these premises. -/
def ofPremises (premises : List Term) : JoinGraph :=
  let names := Term.firstOccurrences (premises.flatMap Term.vars)
  ⟨premises, names.filter fun name => 2 ≤ (holders premises name).length⟩

/-- The first position of a shared variable in a premise. -/
def placement? (j : JoinGraph) (premise join : Nat) : Option Position :=
  match j.premises[premise]?, j.joins[join]? with
  | some t, some name => t.positionOf? name
  | _, _ => none

/-- The number of vertices. -/
def size (j : JoinGraph) : Nat :=
  j.premises.length + j.joins.length

/-- The neighbours of a vertex, the last one first. -/
def neighbors (j : JoinGraph) : JoinVertex → List JoinVertex
  | .premise i =>
    (((List.range j.joins.length).filter fun k => (j.placement? i k).isSome).map .join).reverse
  | .join k =>
    (((List.range j.premises.length).filter fun i => (j.placement? i k).isSome).map
      .premise).reverse

/-- A tour of what can be reached from `v` over vertices that are not among `entered`, which holds
`v`, with the vertices entered in the end. Every level of the tour enters a new vertex, so it is
not deeper than there are vertices. -/
def explore (j : JoinGraph) :
    (depth : Nat) → (v : JoinVertex) → (entered : List JoinVertex) →
      List TourStep × List JoinVertex
  | 0, _, entered => ([], entered)
  | depth + 1, v, entered =>
    let (steps, entered) := (j.neighbors v).foldl (fun (steps, entered) w =>
      if w ∈ entered then (steps, entered)
      else
        let (inner, entered) := j.explore depth w (w :: entered)
        (steps ++ .enter v w :: inner, entered)) ([], entered)
    (steps ++ [.leave v], entered)

/-- The tour from a premise. -/
def tour (j : JoinGraph) (root : Nat) : List TourStep :=
  (j.explore j.size (.premise root) [.premise root]).1

end JoinGraph

end ScoredChaining
