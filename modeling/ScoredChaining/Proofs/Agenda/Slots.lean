import Mathlib.Data.List.Nodup
import ScoredChaining.Agenda.Basic

/-!
The index from candidates to slots.

* `Agenda.Linked`: the index says of every candidate in which slot its entry is.
* `Agenda.KeptBySwaps`: what an exchange of two slots keeps, moving an entry up or down keeps.
* `Agenda.Linked.add`, `Agenda.Linked.pop`, `Agenda.Linked.remove`, `Agenda.Linked.updateScore`:
  each operation keeps this, succeeds just when it should, and changes the entries as it says, up to
  their order.
-/

namespace ScoredChaining

open Std

namespace Agenda

variable {a a' a'' : Agenda} {x y : Entry} {id : EdgeId} {i j slot : Nat}

/-- The index leads from each candidate to the slot of its entry, and from nothing else. -/
def Linked (a : Agenda) : Prop :=
  ∀ id slot, a.slotOf[id]? = some slot ↔ ∃ x : Entry, a.heap[slot]? = some x ∧ x.edge = id

/-- The pending candidates, in heap order. -/
def pending (a : Agenda) : List EdgeId :=
  a.toList.map Entry.edge

/-- The same entries, in other slots. -/
structure Rearranged (a a' : Agenda) : Prop where
  linked : a'.Linked
  perm : a'.toList.Perm a.toList

theorem Rearranged.refl (linked : a.Linked) : Rearranged a a :=
  ⟨linked, .refl _⟩

theorem Rearranged.trans (first : Rearranged a a') (second : Rearranged a' a'') :
    Rearranged a a'' :=
  ⟨second.linked, second.perm.trans first.perm⟩

theorem toList_of_isEmpty (idle : a.isEmpty = true) : a.toList = [] := by
  rw [toList, Array.isEmpty_iff.mp idle]

theorem pending_of_isEmpty (idle : a.isEmpty = true) : a.pending = [] := by
  rw [pending, toList_of_isEmpty idle, List.map_nil]

/-- When no two slots hold one candidate, each is listed once. -/
theorem nodup_pending_of_unique (unique : ∀ (i j : Nat) (x y : Entry), a.heap[i]? = some x →
    a.heap[j]? = some y → x.edge = y.edge → i = j) : a.pending.Nodup := by
  rw [List.nodup_iff_getElem?_ne_getElem?]
  intro i j less bound same
  simp only [pending, toList, List.length_map, Array.length_toList, List.getElem?_map,
    Array.getElem?_toList] at bound same
  have atI := Array.getElem?_eq_getElem (Nat.lt_trans less bound)
  have atJ := Array.getElem?_eq_getElem bound
  rw [atI, atJ] at same
  have := unique i j _ _ atI atJ (Option.some.inj same)
  omega

namespace Linked

theorem empty : Linked Agenda.empty := by
  intro id slot
  simp [Agenda.empty]

theorem mem_pending_iff (linked : a.Linked) :
    id ∈ a.pending ↔ ∃ slot, a.slotOf[id]? = some slot := by
  simp only [pending, toList, List.mem_map, Array.mem_toList_iff, Array.mem_iff_getElem?, linked id]
  constructor
  · rintro ⟨x, ⟨slot, at_⟩, same⟩
    exact ⟨slot, x, at_, same⟩
  · rintro ⟨slot, x, at_, same⟩
    exact ⟨x, ⟨slot, at_⟩, same⟩

theorem contains_iff (linked : a.Linked) : a.contains id = true ↔ id ∈ a.pending := by
  rw [linked.mem_pending_iff, contains, ExtTreeMap.contains_eq_isSome_getElem?,
    Option.isSome_iff_exists]

/-- An edge has at most one entry. -/
theorem slot_unique (linked : a.Linked) (atI : a.heap[i]? = some x) (atJ : a.heap[j]? = some y)
    (same : x.edge = y.edge) : i = j := by
  have fromX := (linked x.edge i).mpr ⟨x, atI, rfl⟩
  have fromY := (linked x.edge j).mpr ⟨y, atJ, same.symm⟩
  exact Option.some.inj (fromX.symm.trans fromY)

theorem nodup_pending (linked : a.Linked) : a.pending.Nodup :=
  nodup_pending_of_unique fun _ _ _ _ => linked.slot_unique

end Linked

/-! ### Heap mechanics -/

theorem slotOf_indexSlot (at_ : a.heap[slot]? = some x) (id : EdgeId) :
    (a.indexSlot slot).slotOf[id]? = if x.edge = id then some slot else a.slotOf[id]? := by
  simp only [indexSlot, at_, ExtTreeMap.getElem?_insert, EdgeId.compare_eq_iff]

theorem slotOf_unindexSlot (at_ : a.heap[slot]? = some x)
    (indexed : a.slotOf[x.edge]? = some slot) (id : EdgeId) :
    (a.unindexSlot slot).slotOf[id]? = if x.edge = id then none else a.slotOf[id]? := by
  simp only [unindexSlot, at_, indexed, if_true, ExtTreeMap.getElem?_erase, EdgeId.compare_eq_iff]

/-- What the slots hold after an exchange. -/
theorem getElem?_heap_swap (boundI : i < a.heap.size) (boundJ : j < a.heap.size) (k : Nat) :
    (a.swap i j).heap[k]? =
      if k = i then a.heap[j]? else if k = j then a.heap[i]? else a.heap[k]? := by
  rw [heap_swap, Array.swapIfInBounds_def, dif_pos boundI, dif_pos boundJ, Array.getElem?_swap,
    Array.getElem?_eq_getElem boundI, Array.getElem?_eq_getElem boundJ]
  grind

theorem Linked.swap (linked : a.Linked) (boundI : i < a.heap.size) (boundJ : j < a.heap.size) :
    Rearranged a (a.swap i j) := by
  by_cases same : i = j
  · rw [Agenda.swap, if_pos same]
    exact .refl linked
  obtain ⟨x, atI⟩ : ∃ x, a.heap[i]? = some x := ⟨_, Array.getElem?_eq_getElem boundI⟩
  obtain ⟨y, atJ⟩ : ∃ y, a.heap[j]? = some y := ⟨_, Array.getElem?_eq_getElem boundJ⟩
  have indexedX : a.slotOf[x.edge]? = some i := (linked _ _).mpr ⟨x, atI, rfl⟩
  have indexedY : a.slotOf[y.edge]? = some j := (linked _ _).mpr ⟨y, atJ, rfl⟩
  have differ : x.edge ≠ y.edge := fun sameEdge => same (linked.slot_unique atI atJ sameEdge)
  have content := getElem?_heap_swap boundI boundJ
  rw [atI, atJ] at content
  have slots : ∀ id, (a.swap i j).slotOf[id]? =
      if x.edge = id then some j else if y.edge = id then some i else a.slotOf[id]? := by
    intro id
    rw [Agenda.swap, if_neg same]
    have atI' := content i
    have atJ' := content j
    rw [heap_swap] at atI' atJ'
    simp only [Ne.symm same, if_true, if_false] at atI' atJ'
    rw [slotOf_indexSlot (x := x) (by simpa using atJ'),
      slotOf_indexSlot (x := y) (by simpa using atI')]
    simp only
    rw [slotOf_unindexSlot (x := y) (by simpa using atJ)
      (by rw [slotOf_unindexSlot atI indexedX, if_neg differ, indexedY]),
      slotOf_unindexSlot atI indexedX]
    by_cases isX : x.edge = id <;> by_cases isY : y.edge = id <;> simp [isX, isY]
  refine ⟨fun id slot => ?_, ?_⟩
  · rw [slots, content]
    by_cases isX : x.edge = id
    · subst isX
      simp only [if_true, Option.some.injEq]
      constructor
      · rintro rfl
        exact ⟨x, by simp [Ne.symm same], rfl⟩
      · rintro ⟨z, at_, sameEdge⟩
        grind [linked.slot_unique atI, linked.slot_unique atJ]
    · simp only [isX, if_false]
      by_cases isY : y.edge = id
      · subst isY
        grind [linked.slot_unique atI, linked.slot_unique atJ]
      · grind [linked id slot]
  · rw [toList, toList, heap_swap, Array.swapIfInBounds_def, dif_pos boundI, dif_pos boundJ]
    exact (Array.swap_perm boundI boundJ).toList

theorem lt_size_of_above_right (above : a.above i j = true) : j < a.heap.size := by
  unfold Agenda.above at above
  split at above
  · rename_i found
    exact (Array.getElem?_eq_some_iff.mp found).1
  · cases above

/-- Exchanging two entries keeps the property. -/
def KeptBySwaps (P : Agenda → Prop) : Prop :=
  ∀ ⦃a i j⦄, i < a.heap.size → j < a.heap.size → P a → P (a.swap i j)

namespace KeptBySwaps

variable {P : Agenda → Prop}

theorem siftUp (kept : KeptBySwaps P) (slot : Nat) (holds : P a) : P (a.siftUp slot) := by
  induction a, slot using Agenda.siftUp.induct with
  | case1 a slot above ih =>
    rw [Agenda.siftUp, dif_pos above]
    exact ih (kept (lt_size_of_above above.2) (lt_size_of_above_right above.2) holds)
  | case2 a slot stop =>
    rw [Agenda.siftUp, dif_neg stop]
    exact holds

theorem siftDown (kept : KeptBySwaps P) (slot : Nat) (holds : P a) : P (a.siftDown slot) := by
  induction a, slot using Agenda.siftDown.induct with
  | case1 a slot stop =>
    rw [Agenda.siftDown, dif_pos stop]
    exact holds
  | case2 a slot moves ih =>
    rw [Agenda.siftDown, dif_neg moves]
    obtain ⟨below, bound⟩ := highest_bounds moves
    exact ih (kept (Nat.lt_trans below bound) bound holds)

theorem restore (kept : KeptBySwaps P) (slot : Nat) (holds : P a) : P (a.restore slot) := by
  unfold Agenda.restore
  split
  · exact kept.siftUp slot holds
  · exact kept.siftDown slot holds

end KeptBySwaps

theorem rearranged_keptBySwaps (a : Agenda) : KeptBySwaps (Rearranged a) :=
  fun _ _ _ boundI boundJ before => before.trans (before.linked.swap boundI boundJ)

theorem Linked.siftUp (linked : a.Linked) (slot : Nat) : Rearranged a (a.siftUp slot) :=
  (rearranged_keptBySwaps a).siftUp slot (.refl linked)

theorem Linked.siftDown (linked : a.Linked) (slot : Nat) : Rearranged a (a.siftDown slot) :=
  (rearranged_keptBySwaps a).siftDown slot (.refl linked)

theorem Linked.restore (linked : a.Linked) (slot : Nat) : Rearranged a (a.restore slot) :=
  (rearranged_keptBySwaps a).restore slot (.refl linked)

@[simp] theorem heap_takeLast (a : Agenda) : a.takeLast.heap = a.heap.pop := by
  simp [takeLast]

/-- Taking the last entry off. -/
theorem Linked.takeLast (linked : a.Linked) (last : a.heap[a.heap.size - 1]? = some x) :
    a.takeLast.Linked ∧ a.toList = a.takeLast.toList ++ [x] := by
  have bound := (Array.getElem?_eq_some_iff.mp last).1
  have slots := slotOf_unindexSlot last ((linked _ _).mpr ⟨x, last, rfl⟩)
  refine ⟨fun id slot => ?_, ?_⟩
  · simp only [Agenda.takeLast, heap_unindexSlot, slots, Array.getElem?_pop]
    have unique := @linked.slot_unique
    by_cases isX : x.edge = id
    · subst isX
      grind
    · grind [linked id slot]
  · have size : a.heap.toList.length - 1 < a.heap.toList.length := by simpa using bound
    simp only [toList, Agenda.takeLast, heap_unindexSlot, Array.toList_pop]
    have atEnd : a.heap.toList.getLast? = some x := by
      rw [List.getLast?_eq_getElem?]
      simpa using last
    exact (List.dropLast_append_getLast? x atEnd).symm

/-! ### Operations -/

/-- A candidate that is not pending can be added. -/
theorem Linked.add (linked : a.Linked) (absent : a.contains id = false) (edge : Edge)
    (score : Score) (priority : Double) :
    (a.add id edge score priority).1 = .ok () ∧ (a.add id edge score priority).2.Linked ∧
      (a.add id edge score priority).2.toList.Perm
        (a.toList ++ [⟨id, distinct (edge.head :: edge.tail), score, priority⟩]) := by
  simp only [Agenda.add, absent, Bool.false_eq_true, if_false, true_and]
  let x : Entry := ⟨id, distinct (edge.head :: edge.tail), score, priority⟩
  have absent' : ∀ slot, a.slotOf[id]? ≠ some slot := by
    intro slot found
    rw [contains, ExtTreeMap.contains_eq_isSome_getElem?, found] at absent
    cases absent
  have last : ({ a with heap := a.heap.push x } : Agenda).heap[a.heap.size]? = some x := by simp
  have added : ({ a with heap := a.heap.push x }.indexSlot a.heap.size : Agenda).Linked := by
    intro d slot
    rw [slotOf_indexSlot last, heap_indexSlot]
    simp only [Array.getElem?_push]
    by_cases same : id = d
    · subst same
      grind [linked id slot]
    · grind [linked d slot]
  have rearranged := added.siftUp a.heap.size
  refine ⟨rearranged.linked, rearranged.perm.trans ?_⟩
  simp [toList, x]

/-- Moving an entry to the end and taking it off. -/
theorem Linked.takeOff (linked : a.Linked) (at_ : a.heap[slot]? = some x) :
    ((a.swap slot (a.heap.size - 1)).takeLast).Linked ∧
      a.toList.Perm (x :: ((a.swap slot (a.heap.size - 1)).takeLast).toList) := by
  have bound := (Array.getElem?_eq_some_iff.mp at_).1
  have boundLast : a.heap.size - 1 < a.heap.size := by omega
  have swapped := linked.swap bound boundLast
  have last : (a.swap slot (a.heap.size - 1)).heap[(a.swap slot (a.heap.size - 1)).heap.size - 1]? =
      some x := by
    have content := Array.getElem?_swap bound boundLast (k := a.heap.size - 1)
    rw [heap_swap, Array.size_swapIfInBounds]
    rw [Array.getElem?_eq_getElem bound] at at_
    simp only [Array.swapIfInBounds_def, bound, boundLast, dif_pos, content, if_true, at_]
  obtain ⟨taken, split⟩ := swapped.linked.takeLast last
  refine ⟨taken, swapped.perm.symm.trans ?_⟩
  rw [split]
  exact List.perm_append_singleton x _

/-- A candidate can be taken off a non-empty agenda. -/
theorem Linked.pop (linked : a.Linked) (nonempty : a.isEmpty = false) :
    ∃ x, a.heap[0]? = some x ∧ a.pop.1 = .ok (candidate x) ∧ a.pop.2.Linked ∧
      a.toList.Perm (x :: a.pop.2.toList) := by
  have bound : 0 < a.heap.size := by
    simp only [isEmpty, Array.isEmpty_eq_false_iff] at nonempty
    exact Array.size_pos_iff.mpr nonempty
  obtain ⟨x, first⟩ : ∃ x, a.heap[0]? = some x := ⟨_, Array.getElem?_eq_getElem bound⟩
  obtain ⟨taken, perm⟩ := linked.takeOff first
  refine ⟨x, first, ?_⟩
  simp only [Agenda.pop, first, true_and]
  split
  · exact ⟨taken, perm⟩
  · have rearranged := taken.siftDown 0
    exact ⟨rearranged.linked, perm.trans (rearranged.perm.symm.cons x)⟩

/-- A pending candidate can be removed. -/
theorem Linked.remove (linked : a.Linked) (pending : id ∈ a.pending) :
    ∃ x, x.edge = id ∧ (a.remove id).1 = .ok (candidate x) ∧ (a.remove id).2.Linked ∧
      a.toList.Perm (x :: (a.remove id).2.toList) := by
  obtain ⟨slot, indexed⟩ := linked.mem_pending_iff.mp pending
  obtain ⟨x, at_, same⟩ := (linked id slot).mp indexed
  have bound := (Array.getElem?_eq_some_iff.mp at_).1
  have nonempty : a.isEmpty = false := by
    rw [isEmpty, Array.isEmpty_eq_false_iff, ← Array.size_pos_iff]
    omega
  obtain ⟨taken, perm⟩ := linked.takeOff at_
  refine ⟨x, same, ?_⟩
  simp only [Agenda.remove, nonempty, Bool.false_eq_true, if_false, indexed, at_, true_and]
  split
  · have rearranged := taken.restore slot
    exact ⟨rearranged.linked, perm.trans (rearranged.perm.symm.cons x)⟩
  · exact ⟨taken, perm⟩

/-- Removing a candidate leaves the entries of all others as they are. -/
theorem Linked.perm_remove (linked : a.Linked) (pending : id ∈ a.pending) :
    (a.remove id).2.toList.Perm (a.toList.filter fun x => x.edge ≠ id) := by
  obtain ⟨x, same, _, _, perm⟩ := linked.remove pending
  have edges : a.pending.Perm (x.edge :: (a.remove id).2.pending) := perm.map Entry.edge
  obtain ⟨gone, _⟩ := List.nodup_cons.mp (edges.nodup_iff.mp linked.nodup_pending)
  have others : ∀ y ∈ (a.remove id).2.toList, y.edge ≠ id := fun y mem sameEdge =>
    gone (List.mem_map.mpr ⟨y, mem, sameEdge.trans same.symm⟩)
  refine .trans (.of_eq ?_) (perm.filter _).symm
  rw [List.filter_cons_of_neg (by simp [same]), List.filter_eq_self.mpr]
  simpa using others

/-- What an update makes of an entry. -/
def updated (id : EdgeId) (update : Score → Score × Double) (x : Entry) : Entry :=
  if x.edge = id then { x with score := (update x.score).1, priority := (update x.score).2 } else x

@[simp] theorem edge_updated (update : Score → Score × Double) :
    (updated id update x).edge = x.edge := by
  unfold updated
  split <;> rfl

@[simp] theorem nodes_updated (update : Score → Score × Double) :
    (updated id update x).nodes = x.nodes := by
  unfold updated
  split <;> rfl

/-- The score and the priority of a pending candidate can be changed. -/
theorem Linked.updateScore (linked : a.Linked) (pending : id ∈ a.pending)
    (update : Score → Score × Double) :
    ∃ x ∈ a.toList, x.edge = id ∧ (a.updateScore id update).1 = .ok x.score ∧
      (a.updateScore id update).2.Linked ∧
      (a.updateScore id update).2.toList.Perm (a.toList.map (updated id update)) := by
  obtain ⟨slot, indexed⟩ := linked.mem_pending_iff.mp pending
  obtain ⟨x, at_, same⟩ := (linked id slot).mp indexed
  have bound := (Array.getElem?_eq_some_iff.mp at_).1
  let new : Entry := { x with score := (update x.score).1, priority := (update x.score).2 }
  have content : ∀ k : Nat, (a.heap.setIfInBounds slot new)[k]? =
      (a.heap[k]?).map (updated id update) := by
    intro k
    rw [Array.getElem?_setIfInBounds]
    by_cases here : slot = k
    · subst here
      rw [at_, if_pos rfl, if_pos bound, Option.map_some, updated, if_pos same]
    · rw [if_neg here]
      cases other : a.heap[k]? with
      | none => rfl
      | some y =>
        have differ : y.edge ≠ id := fun sameEdge =>
          here (linked.slot_unique at_ other (same.trans sameEdge.symm))
        simp [updated, differ]
  have set : ({ a with heap := a.heap.setIfInBounds slot new } : Agenda).Linked := by
    intro d k
    simp only [content, Option.map_eq_some_iff]
    rw [linked d k]
    constructor
    · rintro ⟨y, atK, rfl⟩
      exact ⟨_, ⟨y, atK, rfl⟩, by simp⟩
    · rintro ⟨_, ⟨y, atK, rfl⟩, sameEdge⟩
      exact ⟨y, atK, by simpa using sameEdge⟩
  have rearranged := set.restore slot
  refine ⟨x, Array.mem_toList_iff.mpr (Array.mem_of_getElem? at_), same, ?_⟩
  simp only [Agenda.updateScore, indexed, at_, true_and]
  refine ⟨rearranged.linked, rearranged.perm.trans (.of_eq ?_)⟩
  refine List.ext_getElem? fun k => ?_
  simp only [toList, List.getElem?_map, Array.getElem?_toList]
  exact content k

theorem pending_updated (update : Score → Score × Double)
    (perm : a'.toList.Perm (a.toList.map (updated id update))) : a'.pending.Perm a.pending := by
  refine (perm.map Entry.edge).trans (.of_eq ?_)
  simp [pending, Function.comp_def]

/-- The candidates that touch a node are pending, and each is listed once. -/
theorem Linked.adjacent (linked : a.Linked) (n : NodeId) :
    (a.adjacent n).Nodup ∧ ∀ id ∈ a.adjacent n, id ∈ a.pending := by
  unfold Agenda.adjacent
  split
  · simp
  · rename_i slots _
    constructor
    · have distinctSlots : slots.toList.Nodup :=
        slots.distinct_toList.imp fun differ same => differ (by simp [same])
      refine (List.mergeSort_perm _ _).nodup_iff.mpr (distinctSlots.filterMap ?_)
      intro i j d inI inJ
      obtain ⟨x, atI, rfl⟩ := Option.map_eq_some_iff.mp inI
      obtain ⟨y, atJ, same⟩ := Option.map_eq_some_iff.mp inJ
      exact linked.slot_unique atI atJ same.symm
    · intro id mem
      obtain ⟨slot, _, at_⟩ := List.mem_filterMap.mp (mem_ascending.mp mem)
      obtain ⟨x, at_, same⟩ := Option.map_eq_some_iff.mp at_
      exact linked.mem_pending_iff.mpr ⟨slot, (linked id slot).mpr ⟨x, at_, same⟩⟩

end Agenda

end ScoredChaining
