import ScoredChaining.Agenda.Rank
import ScoredChaining.Decimal.Layout
import ScoredChaining.Distinct
import ScoredChaining.Graph.Basic
import ScoredChaining.Score
import Std.Data.ExtTreeSet

/-!
The agenda: the candidates that wait for a decision.

Candidates are kept in an array as a binary heap, the one with the highest priority in front. Two
indices point back into the array: from a candidate to its slot, and from a node to the slots of
the candidates that touch it. A candidate moves only by a swap of two slots, which takes both
slots out of the indices and puts them back, so the indices stay exact when the two candidates
touch the same nodes.

`Agenda.check` tests the heap order and both indices.
-/

namespace ScoredChaining

open Std

/-- A candidate on the agenda. -/
structure Entry where
  edge : EdgeId
  /-- The nodes that the candidate touches, each once. -/
  nodes : List NodeId
  score : Score
  priority : Double
  deriving Inhabited

/-- A candidate that has left the agenda. -/
structure Candidate where
  edge : EdgeId
  score : Score
  priority : Double
  deriving Inhabited

/-- What can be wrong with an agenda. -/
inductive Violation where
  /-- The candidate in the slot has a higher priority than the one in its parent slot. -/
  | aboveParent (slot parent : Nat) (priority parentPriority : Double)
  /-- The index from candidates has another size than the heap. -/
  | edgeIndexSize (indexed pending : Nat)
  | edgeNotIndexed (edge : EdgeId) (slot : Nat)
  | nodeNotIndexed (node : NodeId) (slot : Nat)
  /-- The index from nodes has another number of slots than the candidates touch nodes. -/
  | nodeIndexSize (indexed touched : Nat)
  deriving DecidableEq

/-- Failures of the agenda. -/
inductive AgendaError where
  | empty
  | duplicate (edge : EdgeId)
  | notOnAgenda (edge : EdgeId)
  | invariant (violation : Violation)
  deriving DecidableEq

/-- The number without an exponent. A not-a-number is written without its sign. -/
def Double.text (x : Double) : String :=
  Decimal.Layout.plain.render x.toFloat

/-- The wording of a violation. -/
def Violation.message : Violation → String
  | .aboveParent slot parent priority parentPriority =>
    "slot " ++ toString slot ++ " priority " ++ priority.text ++ " exceeds parent " ++
      toString parent ++ " priority " ++ parentPriority.text
  | .edgeIndexSize indexed pending =>
    "edge index has " ++ toString indexed ++ " entries for " ++ toString pending ++ " heap slots"
  | .edgeNotIndexed edge slot =>
    "edge " ++ edge.text ++ " is in slot " ++ toString slot ++ " but not indexed there"
  | .nodeNotIndexed node slot => "node " ++ node.text ++ " is missing slot " ++ toString slot
  | .nodeIndexSize indexed touched =>
    "node index holds " ++ toString indexed ++ " slot references, expected " ++ toString touched

/-- The wording of an agenda failure. -/
def AgendaError.diagnostic : AgendaError → Diagnostic
  | .empty =>
    .of "agenda" "empty" "agenda is empty"
      "Check `is_empty()` before calling pop, peek or remove."
  | .duplicate edge =>
    .of "agenda" "duplicate" ("edge " ++ edge.text ++ " is already on the agenda")
      ("Each edge may occupy at most one heap slot. Use `rescore` to change the score of a pending " ++
        "edge, or go through the driver which skips duplicates.")
  | .notOnAgenda edge =>
    .of "agenda" "not_on_agenda" ("edge " ++ edge.text ++ " is not on the agenda")
      "Use `contains` to check whether an edge is still pending."
  | .invariant violation =>
    .of "agenda" "invariant" ("agenda invariant violated: " ++ violation.message)
      "This is a bug in the agenda's index bookkeeping. Please file a report."

instance : Explained AgendaError := ⟨AgendaError.diagnostic⟩

/-- The slots of the candidates that touch each node. -/
abbrev NodeIndex := ExtTreeMap NodeId (ExtTreeSet Nat)

namespace NodeIndex

/-- Adds a slot of a node. -/
def addSlot (m : NodeIndex) (slot : Nat) (n : NodeId) : NodeIndex :=
  m.insert n (((m[n]?).getD ∅).insert slot)

/-- Removes a slot of a node, and the node with its last slot. -/
def dropSlot (m : NodeIndex) (slot : Nat) (n : NodeId) : NodeIndex :=
  match m[n]? with
  | none => m
  | some slots =>
    let rest := slots.erase slot
    if rest.isEmpty then m.erase n else m.insert n rest

/-- The number of slots, counted once for each node. -/
def pairs (m : NodeIndex) : Nat :=
  m.foldl (fun total _ slots => total + slots.size) 0

end NodeIndex

/-- The candidates that wait for a decision, as a heap with two indices. -/
structure Agenda where
  heap : Array Entry
  slotOf : ExtTreeMap EdgeId Nat
  slotsOfNode : NodeIndex

namespace Agenda

/-- No candidates. -/
def empty : Agenda :=
  ⟨#[], ∅, ∅⟩

instance : Inhabited Agenda := ⟨empty⟩

/-- The number of candidates. -/
def size (a : Agenda) : Nat :=
  a.heap.size

/-- There is no candidate. -/
def isEmpty (a : Agenda) : Bool :=
  a.heap.isEmpty

/-- The edge is a candidate. -/
def contains (a : Agenda) (edge : EdgeId) : Bool :=
  a.slotOf.contains edge

/-- The entry of a candidate. -/
def entry? (a : Agenda) (edge : EdgeId) : Option Entry :=
  (a.slotOf[edge]?).bind fun slot => a.heap[slot]?

/-- The candidates in heap order. -/
def toList (a : Agenda) : List Entry :=
  a.heap.toList

/-! ### Heap mechanics -/

/-- The slot above a slot. -/
def parent (slot : Nat) : Nat :=
  (slot - 1) / 2

/-- The entry in slot `i` has a higher priority than the entry in slot `j`. -/
def above (a : Agenda) (i j : Nat) : Bool :=
  match a.heap[i]?, a.heap[j]? with
  | some x, some y => ranksAbove x.priority y.priority
  | _, _ => false

/-- Puts the entry of a slot into the indices. -/
def indexSlot (a : Agenda) (slot : Nat) : Agenda :=
  match a.heap[slot]? with
  | none => a
  | some e =>
    { a with
      slotOf := a.slotOf.insert e.edge slot
      slotsOfNode := e.nodes.foldl (fun m n => NodeIndex.addSlot m slot n) a.slotsOfNode }

/-- Takes the entry of a slot out of the indices. -/
def unindexSlot (a : Agenda) (slot : Nat) : Agenda :=
  match a.heap[slot]? with
  | none => a
  | some e =>
    { a with
      slotOf := if a.slotOf[e.edge]? = some slot then a.slotOf.erase e.edge else a.slotOf
      slotsOfNode := e.nodes.foldl (fun m n => NodeIndex.dropSlot m slot n) a.slotsOfNode }

/-- Exchanges the entries of two slots. -/
def swap (a : Agenda) (i j : Nat) : Agenda :=
  if i = j then a
  else
    let a := (a.unindexSlot i).unindexSlot j
    ({ a with heap := a.heap.swapIfInBounds i j }.indexSlot i).indexSlot j

@[simp] theorem heap_indexSlot (a : Agenda) (slot : Nat) : (a.indexSlot slot).heap = a.heap := by
  unfold indexSlot
  split <;> rfl

@[simp] theorem heap_unindexSlot (a : Agenda) (slot : Nat) :
    (a.unindexSlot slot).heap = a.heap := by
  unfold unindexSlot
  split <;> rfl

@[simp] theorem heap_swap (a : Agenda) (i j : Nat) :
    (a.swap i j).heap = a.heap.swapIfInBounds i j := by
  unfold swap
  split
  · rename_i same
    subst same
    unfold Array.swapIfInBounds
    split <;> simp [Array.swap_def]
  · simp

/-- Moves the entry of a slot up while it has a higher priority than the entry above it. -/
def siftUp (a : Agenda) (slot : Nat) : Agenda :=
  if _h : 0 < slot ∧ a.above slot (parent slot) = true then
    (a.swap slot (parent slot)).siftUp (parent slot)
  else a
termination_by slot
decreasing_by
  have : parent slot ≤ slot - 1 := Nat.div_le_self _ _
  omega

/-- The slot with the highest priority among a slot and the two slots below it; of equal ones the
first. -/
def highest (a : Agenda) (slot : Nat) : Nat :=
  let best := if a.above (2 * slot + 1) slot then 2 * slot + 1 else slot
  if a.above (2 * slot + 2) best then 2 * slot + 2 else best

theorem lt_size_of_above {a : Agenda} {i j : Nat} (h : a.above i j = true) : i < a.heap.size := by
  unfold above at h
  split at h
  · rename_i found _
    exact (Array.getElem?_eq_some_iff.mp found).1
  · simp at h

/-- The highest slot is the slot itself or one below it that holds an entry. -/
theorem highest_cases (a : Agenda) (slot : Nat) :
    a.highest slot = slot ∨ slot < a.highest slot ∧ a.highest slot < a.heap.size := by
  have left := @lt_size_of_above a (2 * slot + 1) slot
  have right := @lt_size_of_above a (2 * slot + 2)
  grind [highest]

theorem highest_bounds {a : Agenda} {slot : Nat} (h : a.highest slot ≠ slot) :
    slot < a.highest slot ∧ a.highest slot < a.heap.size :=
  (a.highest_cases slot).resolve_left h

/-- Moves the entry of a slot down while an entry below it has a higher priority. -/
def siftDown (a : Agenda) (slot : Nat) : Agenda :=
  if _h : a.highest slot = slot then a
  else (a.swap slot (a.highest slot)).siftDown (a.highest slot)
termination_by a.heap.size - slot
decreasing_by
  have := highest_bounds _h
  simp
  omega

/-- Moves the entry of a slot to where it belongs, up or down. -/
def restore (a : Agenda) (slot : Nat) : Agenda :=
  if 0 < slot && a.above slot (parent slot) then a.siftUp slot else a.siftDown slot

/-- Takes the last entry off. -/
def takeLast (a : Agenda) : Agenda :=
  let a := a.unindexSlot (a.heap.size - 1)
  { a with heap := a.heap.pop }

/-! ### Operations -/

/-- What is reported of an entry. -/
def candidate (e : Entry) : Candidate :=
  ⟨e.edge, e.score, e.priority⟩

/-- Adds a candidate that is not on the agenda. -/
def add (a : Agenda) (id : EdgeId) (edge : Edge) (score : Score) (priority : Double) :
    Except AgendaError Unit × Agenda :=
  if a.contains id then (.error (.duplicate id), a)
  else
    let slot := a.heap.size
    let entry : Entry := ⟨id, distinct (edge.head :: edge.tail), score, priority⟩
    (.ok (), ({ a with heap := a.heap.push entry }.indexSlot slot).siftUp slot)

/-- The candidate with the highest priority. -/
def peek (a : Agenda) : Except AgendaError Candidate :=
  match a.heap[0]? with
  | some e => .ok (candidate e)
  | none => .error .empty

/-- Takes the candidate with the highest priority off the agenda. -/
def pop (a : Agenda) : Except AgendaError Candidate × Agenda :=
  match a.heap[0]? with
  | none => (.error .empty, a)
  | some e =>
    let a := (a.swap 0 (a.heap.size - 1)).takeLast
    (.ok (candidate e), if a.isEmpty then a else a.siftDown 0)

/-- Takes a candidate off the agenda. -/
def remove (a : Agenda) (edge : EdgeId) : Except AgendaError Candidate × Agenda :=
  if a.isEmpty then (.error .empty, a)
  else
    match a.slotOf[edge]? with
    | none => (.error (.notOnAgenda edge), a)
    | some slot =>
      match a.heap[slot]? with
      | none => (.error (.notOnAgenda edge), a)
      | some e =>
        let a := (a.swap slot (a.heap.size - 1)).takeLast
        (.ok (candidate e), if slot < a.heap.size then a.restore slot else a)

/-- Replaces the score and the priority of a candidate by what `update` makes of the score. The
answer is the old score. -/
def updateScore (a : Agenda) (edge : EdgeId) (update : Score → Score × Double) :
    Except AgendaError Score × Agenda :=
  match a.slotOf[edge]? with
  | none => (.error (.notOnAgenda edge), a)
  | some slot =>
    match a.heap[slot]? with
    | none => (.error (.notOnAgenda edge), a)
    | some e =>
      let (score, priority) := update e.score
      (.ok e.score,
        { a with heap := a.heap.setIfInBounds slot { e with score, priority } }.restore slot)

/-- Replaces the score and the priority of a candidate. The answer is the old score. -/
def rescore (a : Agenda) (edge : EdgeId) (score : Score) (priority : Double) :
    Except AgendaError Score × Agenda :=
  a.updateScore edge fun _ => (score, priority)

/-- The candidates that touch a node, in ascending order. -/
def adjacent (a : Agenda) (n : NodeId) : List EdgeId :=
  match a.slotsOfNode[n]? with
  | none => []
  | some slots =>
    ascending (slots.toList.filterMap fun slot => (a.heap[slot]?).map Entry.edge)

/-- Drops every candidate. -/
def clear (_ : Agenda) : Agenda :=
  empty

/-! ### Checking -/

/-- What is wrong with the place of the entry of a slot. -/
def placeViolation? (a : Agenda) (slot : Nat) : Option Violation :=
  match a.heap[slot]?, a.heap[parent slot]? with
  | some x, some y =>
    if 0 < slot && ranksAbove x.priority y.priority then
      some (.aboveParent slot (parent slot) x.priority y.priority)
    else none
  | _, _ => none

/-- The first slot whose entry has a higher priority than the entry above it. -/
def orderViolation? (a : Agenda) : Option Violation :=
  (List.range a.heap.size).findSome? a.placeViolation?

/-- What is wrong with the indices for the entry of a slot. -/
def entryViolation? (a : Agenda) (slot : Nat) (e : Entry) : Option Violation :=
  if a.slotOf[e.edge]? ≠ some slot then some (.edgeNotIndexed e.edge slot)
  else
    e.nodes.findSome? fun n =>
      if ((a.slotsOfNode[n]?).getD ∅).contains slot then none else some (.nodeNotIndexed n slot)

/-- The first slot whose entry is not where the indices say. -/
def indexViolation? (a : Agenda) : Option Violation :=
  (List.range a.heap.size).findSome? fun slot =>
    (a.heap[slot]?).bind fun e => a.entryViolation? slot e

/-- What is wrong with the agenda, if anything. -/
def violation? (a : Agenda) : Option Violation :=
  match a.orderViolation? with
  | some v => some v
  | none =>
    if a.slotOf.size ≠ a.heap.size then some (.edgeIndexSize a.slotOf.size a.heap.size)
    else
      match a.indexViolation? with
      | some v => some v
      | none =>
        let touched := a.toList.foldl (fun n e => n + e.nodes.length) 0
        let indexed := a.slotsOfNode.pairs
        if indexed ≠ touched then some (.nodeIndexSize indexed touched) else none

/-- Tests the heap order and both indices. -/
def check (a : Agenda) : Except AgendaError Unit :=
  match a.violation? with
  | some v => .error (.invariant v)
  | none => .ok ()

end Agenda

end ScoredChaining
