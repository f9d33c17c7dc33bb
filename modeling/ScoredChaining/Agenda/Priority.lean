import ScoredChaining.Agenda.Rank
import ScoredChaining.Decimal.Reading
import ScoredChaining.Draw.KeyedHash
import ScoredChaining.Draw.Stream
import ScoredChaining.Graph.Facts
import ScoredChaining.Score
import ScoredChaining.Text.Blank
import ScoredChaining.Text.Cut

/-!
Priorities: the search strategy of a run, as a weighted sum of heuristics.

A description is the name of one heuristic, or weighted names with plus signs between them, such as
`1*easyfirst + 0.5*leftright`.
-/

namespace ScoredChaining

/-- A way to order candidates. -/
inductive Heuristic where
  /-- Facts whose largest integer argument is small come first. -/
  | leftRight (slope : Float)
  /-- The hyperbolic tangent of the score on a scale. -/
  | easyFirst (scale : Float)
  /-- The score. -/
  | easyFirstLinear
  /-- Relations late in the given order come first. -/
  | depthFirst
  /-- Relations early in the given order come first. -/
  | breadthFirst
  /-- A number between zero and one that is fixed for each fact. -/
  | random
  deriving Repr, Inhabited

/-- Failures of reading a priority. -/
inductive PriorityError where
  | unknownHeuristic (name : String)
  | emptyTerm (description : String)
  | missingWeight (description : String)
  | badWeight (description weight : String)
  deriving DecidableEq

/-- What is wrong with the form of a description. -/
def PriorityError.malformed (description problem : String) : Diagnostic :=
  .of "config" "priority_syntax"
    ("malformed agenda priority '" ++ description ++ "': " ++ problem)
    "Use `name` alone, or `w*name + w*name` with numeric weights."

/-- The wording of a priority failure. -/
def PriorityError.diagnostic : PriorityError → Diagnostic
  | .unknownHeuristic name =>
    .of "config" "unknown_priority" ("unknown agenda priority \"" ++ name ++ "\"")
      ("Known priorities: leftright, easyfirst, easyfirst-linear, dfs, bfs, random. Combine them as " ++
        "a weighted sum, e.g. `1*easyfirst + 0.5*leftright`.")
  | .emptyTerm description => malformed description "empty term"
  | .missingWeight description =>
    malformed description "a term without a weight must be the only term"
  | .badWeight description weight =>
    malformed description ("weight '" ++ weight ++ "' is not a number")

instance : Explained PriorityError := ⟨PriorityError.diagnostic⟩

namespace Heuristic

/-- The heuristic with this name in any letter case. -/
def byName? (name : String) : Option Heuristic :=
  match String.ofList (Decimal.lowerAscii name.toList) with
  | "leftright" | "left2right" | "left-right" | "l2r" => some (.leftRight (1.0 / 5.0))
  | "easyfirst" | "easy-first" | "easyfirst-dynamic" | "bestfirst" | "best-first" =>
    some (.easyFirst 100.0)
  | "easyfirst-linear" => some .easyFirstLinear
  | "dfs" => some .depthFirst
  | "bfs" => some .breadthFirst
  | "random" => some .random
  | _ => none

/-- `byName?`, refusing an unknown name. -/
def byName (name : String) : Except PriorityError Heuristic :=
  match byName? name with
  | some h => .ok h
  | none => .error (.unknownHeuristic name)

end Heuristic

/-- A weighted sum of heuristics, with the order of relations and the seed that they use. -/
structure Priority where
  terms : List (Float × Heuristic)
  relationOrder : List String
  seed : UInt64

namespace Priority

/-- The terms with no order of relations and the usual seed. -/
def ofTerms (terms : List (Float × Heuristic)) : Priority :=
  ⟨terms, [], 9001⟩

/-- The score alone. -/
def byScore : Priority :=
  ofTerms [(1.0, .easyFirstLinear)]

instance : Inhabited Priority := ⟨byScore⟩

/-- One term of a description, which has `count` terms. -/
def readTerm (description : String) (count : Nat) (term : List Char) :
    Except PriorityError (Float × Heuristic) :=
  if term = [] then .error (.emptyTerm description)
  else
    match Text.cut ['*'] term with
    | none =>
      if count ≠ 1 then .error (.missingWeight description)
      else (Heuristic.byName (String.ofList term)).map fun h => (1.0, h)
    | some (weight, name) =>
      match Decimal.readFloat? (Text.trim weight) with
      | none => .error (.badWeight description (String.ofList (Text.trim weight)))
      | some w => (Heuristic.byName (String.ofList (Text.trim name))).map fun h => (w, h)

/-- The priority with this description. The first bad term is the one reported. -/
def read (description : String) : Except PriorityError Priority := do
  let terms := (Text.pieces '+' description.toList).map Text.trim
  return ofTerms (← terms.mapM (readTerm description terms.length))

/-- The place of a relation in the given order, the last one if it is named more than once, and
zero if it is not named. -/
def rank (p : Priority) (name : String) : Nat :=
  match p.relationOrder.reverse.findIdx? (· == name) with
  | some fromEnd => p.relationOrder.length - 1 - fromEnd
  | none => 0

/-- The largest integer among the arguments of a fact, or zero if there is none. -/
def lastPosition (g : Graph) (e : Edge) : Int64 :=
  let integers := e.tail.filterMap fun n => (g.valueOf n).toOption.bind Value.asInt
  match integers with
  | [] => 0
  | n :: rest => rest.foldl max n

/-- The bytes of a string in UTF-8. -/
def utf8 (s : String) : List UInt8 :=
  s.toUTF8.toList

mutual

/-- The bytes that stand for a value in the hash of a fact. -/
def valueBytes : Value → List UInt8
  | .int n => Draw.bytesOf 8 0 ++ Draw.bytesOf 8 n.toUInt64.toNat
  | .str s => Draw.bytesOf 8 1 ++ utf8 s ++ [0xff]
  | .tuple items => Draw.bytesOf 8 2 ++ Draw.bytesOf 8 items.length ++ allBytes items

/-- The bytes of the values in order. -/
def allBytes : List Value → List UInt8
  | [] => []
  | v :: rest => valueBytes v ++ allBytes rest

end

/-- The bytes that stand for an argument: those of its value, or those of its number if it is no
longer live. -/
def argumentBytes (g : Graph) (n : NodeId) : List UInt8 :=
  match g.valueOf n with
  | .ok v => valueBytes v
  | .error _ => Draw.bytesOf 8 n.partition.rank ++ Draw.bytesOf 4 n.index

/-- The bytes that stand for a fact. -/
def factBytes (g : Graph) (e : Edge) : List UInt8 :=
  Draw.bytesOf 4 e.relation.index ++ e.tail.flatMap (argumentBytes g)

/-- What a heuristic says of a candidate. -/
def heuristicValue (p : Priority) (g : Graph) (e : Edge) (score : Score) : Heuristic → Float
  | .leftRight slope => slope * -(lastPosition g e).toFloat
  | .easyFirst scale => (score.value / scale).tanh
  | .easyFirstLinear => score.value
  | .depthFirst => Float.ofNat (p.rank (g.schema.relationName e.relation))
  | .breadthFirst => -(Float.ofNat (p.rank (g.schema.relationName e.relation)))
  | .random => Draw.unitFloat (p.seed ^^^ Draw.hashBytes (factBytes g e))

/-- The priority of a candidate: the weighted sum, from minus zero and from left to right. -/
def of (p : Priority) (g : Graph) (e : Edge) (score : Score) : Double :=
  .ofFloat (p.terms.foldl (fun total (w, h) => total + w * p.heuristicValue g e score h) (-0.0))

end Priority

end ScoredChaining
