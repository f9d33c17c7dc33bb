import ScoredChaining.FactBase
import ScoredChaining.Graph.Facts
import ScoredChaining.Pattern.Trie
import Std.Data.ExtTreeSet

/-!
Matching: finding every pattern that a newly committed fact completes.

A walk starts at the witness of the fact and follows the tree of patterns. From a vertex it steps
to the neighbours for whose key there is a branch, and back along the key `parent`. A link, one
step between a fact and one of its nodes in one direction, is crossed at most once at a time, which
makes the walk finite; a vertex may be met again over another link, so two variables of a pattern
can be bound to the same node.

Vertices are ordered, nodes first and then by number, and links by source, target and position
(`Vertex.compare_eq_iff`, `Link.compare_eq_iff`).
-/

namespace ScoredChaining

open Std

namespace Vertex

/-- The kind of a vertex, by its place in the order. -/
def kindRank : Vertex → Nat
  | .node _ => 0
  | .edge _ => 1

/-- The place of the partition of a vertex. -/
def partitionRank : Vertex → Nat
  | .node n => n.partition.rank
  | .edge e => e.partition.rank

/-- The number of a vertex within its kind and partition. -/
def index : Vertex → Nat
  | .node n => n.index
  | .edge e => e.index

instance : Ord Vertex :=
  ⟨compareLex (compareOn kindRank) (compareLex (compareOn partitionRank) (compareOn index))⟩

instance : TransOrd Vertex :=
  inferInstanceAs (TransCmp (compareLex (compareOn kindRank)
    (compareLex (compareOn partitionRank) (compareOn index))))

theorem compare_eq_iff {v w : Vertex} : compare v w = .eq ↔ v = w := by
  have unfolded : compare v w = (compare v.kindRank w.kindRank).then
    ((compare v.partitionRank w.partitionRank).then (compare v.index w.index)) := rfl
  rw [unfolded]
  obtain ⟨p, i⟩ | ⟨p, i⟩ := v <;> obtain ⟨q, j⟩ | ⟨q, j⟩ := w <;>
    simp [Ordering.then_eq_eq, kindRank, partitionRank, index, Partition.rank_inj]

instance : LawfulEqOrd Vertex where
  eq_of_compare := compare_eq_iff.mp

end Vertex

/-- A step from a vertex to a neighbour, with the position that joins them. -/
structure Link where
  source : Vertex
  target : Vertex
  position : Position
  deriving DecidableEq, Inhabited

namespace Link

instance : Ord Link :=
  ⟨compareLex (compareOn source)
    (compareLex (compareOn target) (compareOn fun l => l.position.rank))⟩

instance : TransOrd Link :=
  inferInstanceAs (TransCmp (compareLex (compareOn source)
    (compareLex (compareOn target) (compareOn fun l : Link => l.position.rank))))

theorem compare_eq_iff {k l : Link} : compare k l = .eq ↔ k = l := by
  have unfolded : compare k l = (compare k.source l.source).then
    ((compare k.target l.target).then (compare k.position.rank l.position.rank)) := rfl
  rw [unfolded]
  obtain ⟨v, w, p⟩ := k
  obtain ⟨v', w', p'⟩ := l
  simp [Ordering.then_eq_eq, Position.rank_inj]

instance : LawfulEqOrd Link where
  eq_of_compare := compare_eq_iff.mp

end Link

/-- A vertex that a walk has met, with the key of the step that led to it. -/
structure Binding where
  key : Key
  vertex : Vertex
  deriving DecidableEq, Inhabited

/-- Where a walk stands. All lists have the latest element first. -/
structure Trace where
  /-- The vertices from the present one back to the start. -/
  stack : List Vertex
  /-- The links that are crossed. -/
  crossed : ExtTreeSet Link
  /-- The crossed links, in the order in which they are taken back. -/
  links : List Link
  /-- The target of every crossed link with the key under which it was met. -/
  bindings : List Binding
  deriving DecidableEq, Inhabited

namespace Trace

/-- A walk that stands at its start. -/
def start (v : Vertex) : Trace :=
  ⟨[v], ∅, [], []⟩

/-- The link is crossed. -/
def isCrossed (t : Trace) (l : Link) : Bool :=
  t.crossed.contains l

/-- The vertex that was met last under a key. -/
def get? (t : Trace) (key : Key) : Option Vertex :=
  (t.bindings.find? fun b => b.key == key).map Binding.vertex

/-- Crosses a link and binds its target. -/
def cross (t : Trace) (key : Key) (l : Link) : Trace :=
  ⟨l.target :: t.stack, t.crossed.insert l, l :: t.links, ⟨key, l.target⟩ :: t.bindings⟩

/-- Crosses a link and binds its target, unless the link is crossed already. -/
def cross? (t : Trace) (key : Key) (l : Link) : Option Trace :=
  if t.isCrossed l then none else some (t.cross key l)

/-- Takes the last crossing back. -/
def uncross (t : Trace) : Trace where
  stack := t.stack.tail
  crossed :=
    match t.links with
    | [] => t.crossed
    | l :: _ => t.crossed.erase l
  links := t.links.tail
  bindings := t.bindings.tail

end Trace

/-- A completed pattern: its actions, and the vertices met on the way in order. -/
structure Match (γ φ : Type) where
  actions : Actions γ φ
  bindings : List Binding

/-- How much work an attempt to match was. -/
structure WalkStats where
  /-- Tree nodes visited, the root included. -/
  calls : Nat
  /-- Links crossed. -/
  pushes : Nat
  /-- The largest number of links crossed at the same time. -/
  maxCrossed : Nat
  deriving Repr, DecidableEq, Inhabited

/-- An attempt to match: where the walk stands, the work so far and what was found, in order. -/
structure Walk (γ φ : Type) where
  trace : Trace
  stats : WalkStats
  found : List (Match γ φ)

/-- The visit of a tree node while the walk stands at a vertex. -/
abbrev Visit (γ φ : Type) := Vertex → Walk γ φ → Except StoreError (Walk γ φ)

variable {γ φ : Type}

namespace Walk

/-- Counts a visit and reports the actions of the visited node. -/
def enter (w : Walk γ φ) (actions : Option (Actions γ φ)) : Walk γ φ :=
  let stats := { w.stats with calls := w.stats.calls + 1 }
  match actions with
  | none => { w with stats }
  | some a => { w with stats, found := w.found ++ [⟨a, w.trace.bindings.reverse⟩] }

/-- Steps back to the previous vertex, if there is one, visits it, and returns. -/
def stepBack (w : Walk γ φ) (visit : Visit γ φ) : Except StoreError (Walk γ φ) :=
  match w.trace.stack with
  | top :: previous :: rest =>
    match visit previous { w with trace := { w.trace with stack := previous :: rest } } with
    | .error e => .error e
    | .ok w => .ok { w with trace := { w.trace with stack := top :: w.trace.stack } }
  | _ => .ok w

/-- Crosses a link that is not crossed, visits its target, and takes the crossing back. -/
def stepOver (w : Walk γ φ) (key : Key) (l : Link) (visit : Visit γ φ) :
    Except StoreError (Walk γ φ) :=
  match w.trace.cross? key l with
  | none => .ok w
  | some trace =>
    let stats := { w.stats with
      pushes := w.stats.pushes + 1
      maxCrossed := max w.stats.maxCrossed trace.crossed.size }
    match visit l.target { w with trace, stats } with
    | .error e => .error e
    | .ok w => .ok { w with trace := w.trace.uncross }

end Walk

/-- The key of the step to a neighbour. -/
def stepKey (facts : FactBase) (g : Graph) (p : Position) : Vertex → Except StoreError Key
  | .edge e =>
    match facts.edge? e with
    | some edge => .ok (.relation edge.relation p)
    | none => .error (.unknownEdge e)
  | .node n => (g.typeOf n).map fun t => .type t p

/-- Steps to a neighbour of the present vertex if there is a branch for it. -/
def stepTo (facts : FactBase) (g : Graph) (branch : Key → Option (Visit γ φ)) (current : Vertex)
    (w : Walk γ φ) (neighbor : Vertex × Position) : Except StoreError (Walk γ φ) :=
  let l : Link := ⟨current, neighbor.1, neighbor.2⟩
  if w.trace.isCrossed l then .ok w
  else
    match stepKey facts g neighbor.2 neighbor.1 with
    | .error e => .error e
    | .ok key =>
      match branch key with
      | none => .ok w
      | some visit => w.stepOver key l visit

/-- Visits a tree node with the given actions and branches: reports the actions, then steps back,
then to each neighbour in order. -/
def visitNode (facts : FactBase) (g : Graph) (actions : Option (Actions γ φ)) (isLeaf : Bool)
    (branch : Key → Option (Visit γ φ)) : Visit γ φ := fun current w =>
  let w := w.enter actions
  if isLeaf then .ok w
  else
    let back : Except StoreError (Walk γ φ) :=
      match branch .parent with
      | none => .ok w
      | some visit => w.stepBack visit
    match back with
    | .error e => .error e
    | .ok w => (facts.neighbors current).foldlM (stepTo facts g branch current) w

mutual

/-- The visit of the root of a tree. -/
def Trie.visit (facts : FactBase) (g : Graph) : Trie γ φ → Visit γ φ
  | .node actions branches =>
    visitNode facts g actions branches.isEmpty (Branches.visit? facts g branches)

/-- The visit of the child under a key. -/
def Branches.visit? (facts : FactBase) (g : Graph) : Branches γ φ → Key → Option (Visit γ φ)
  | .nil, _ => none
  | .cons k child rest, key =>
    if key = k then some (Trie.visit facts g child) else Branches.visit? facts g rest key

end

/-- Every pattern that a committed fact completes, in the order in which the walk meets them. -/
def Trie.matchEdge (t : Trie γ φ) (facts : FactBase) (g : Graph) (id : EdgeId) :
    Except StoreError (List (Match γ φ) × WalkStats) :=
  match facts.edge? id with
  | none => .error (.unknownEdge id)
  | some edge =>
    let start := Vertex.node edge.head
    (t.visit facts g start ⟨.start start, ⟨0, 0, 0⟩, []⟩).map fun w => (w.found, w.stats)

end ScoredChaining
