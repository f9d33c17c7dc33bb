import ScoredChaining.Proofs.Agenda.Check

/-!
Nodes that the index keeps without slots.

No operation leaves such a node behind, but an agenda may be sound and have some. They make no
difference to any operation.

* `NodeIndex.tidy`, `Agenda.tidy`: the index, and the agenda, without these nodes.
* `Agenda.tidy_remove`, `Agenda.tidy_updateScore`: tidying first and then making the call comes to the
  same as making the call and then tidying.
* `Agenda.Sound.remove`, `Agenda.Sound.updateScore`: so the operations keep an agenda sound, also one
  that has such nodes.
-/

namespace ScoredChaining

open Std

namespace NodeIndex

variable {m : NodeIndex} {n : NodeId} {slot : Nat}

/-- The index without the nodes that have no slots. -/
def tidy (m : NodeIndex) : NodeIndex :=
  m.filter fun _ slots => !slots.isEmpty

theorem getElem?_tidy : m.tidy[n]? = (m[n]?).filter fun slots => !slots.isEmpty :=
  ExtTreeMap.getElem?_filter'

@[simp] theorem slotsAt_tidy : m.tidy.slotsAt n = m.slotsAt n := by
  rw [slotsAt, slotsAt, getElem?_tidy]
  cases m[n]? with
  | none => rfl
  | some slots =>
    by_cases idle : slots.isEmpty = true
    · simp [Option.filter, ExtTreeSet.isEmpty_iff.mp idle]
    · simp [Option.filter, idle]

theorem ne_empty_of_tidy {slots : ExtTreeSet Nat} (found : m.tidy[n]? = some slots) :
    slots ≠ ∅ := by
  rw [getElem?_tidy, Option.filter_eq_some_iff] at found
  rintro rfl
  simp at found

theorem tidy_addSlot : (m.addSlot slot n).tidy = m.tidy.addSlot slot n := by
  have same : m.tidy.slotsAt n = m.slotsAt n := slotsAt_tidy
  unfold slotsAt at same
  apply ExtTreeMap.ext_getElem?
  intro n'
  rw [getElem?_tidy, addSlot, addSlot, ExtTreeMap.getElem?_insert, ExtTreeMap.getElem?_insert, same]
  split
  · simp [Option.filter]
  · rw [getElem?_tidy]

theorem tidy_dropSlot : (m.dropSlot slot n).tidy = m.tidy.dropSlot slot n := by
  apply ExtTreeMap.ext_getElem?
  intro n'
  have here := getElem?_tidy (m := m) (n := n)
  have there := getElem?_tidy (m := m) (n := n')
  simp only [dropSlot, here, getElem?_tidy]
  cases found : m[n]? with
  | none => simp [there]
  | some slots =>
    by_cases idle : slots.isEmpty = true
    · obtain rfl := ExtTreeSet.isEmpty_iff.mp idle
      by_cases same : n = n'
      · subst same
        simp [Option.filter, found, there]
      · simp [Option.filter, there, same, ExtTreeMap.getElem?_erase]
    · by_cases last : (slots.erase slot).isEmpty = true
      · by_cases same : n = n' <;>
          simp [Option.filter, idle, last, there, same, ExtTreeMap.getElem?_erase]
      · by_cases same : n = n' <;>
          simp [Option.filter, idle, last, there, same, ExtTreeMap.getElem?_insert]

theorem tidy_addSlots (slot : Nat) (nodes : List NodeId) (m : NodeIndex) :
    (nodes.foldl (fun m n => m.addSlot slot n) m).tidy =
      nodes.foldl (fun m n => m.addSlot slot n) m.tidy := by
  induction nodes generalizing m with
  | nil => rfl
  | cons n rest ih => rw [List.foldl_cons, ih, tidy_addSlot, List.foldl_cons]

theorem tidy_dropSlots (slot : Nat) (nodes : List NodeId) (m : NodeIndex) :
    (nodes.foldl (fun m n => m.dropSlot slot n) m).tidy =
      nodes.foldl (fun m n => m.dropSlot slot n) m.tidy := by
  induction nodes generalizing m with
  | nil => rfl
  | cons n rest ih => rw [List.foldl_cons, ih, tidy_dropSlot, List.foldl_cons]

end NodeIndex

namespace Agenda

variable {a : Agenda} {id : EdgeId}

/-- The agenda without the nodes that its index keeps without slots. -/
def tidy (a : Agenda) : Agenda :=
  { a with slotsOfNode := a.slotsOfNode.tidy }

@[simp] theorem heap_tidy (a : Agenda) : a.tidy.heap = a.heap := rfl

@[simp] theorem slotOf_tidy (a : Agenda) : a.tidy.slotOf = a.slotOf := rfl

@[simp] theorem isEmpty_tidy (a : Agenda) : a.tidy.isEmpty = a.isEmpty := rfl

@[simp] theorem above_tidy (a : Agenda) (i j : Nat) : a.tidy.above i j = a.above i j := rfl

@[simp] theorem highest_tidy (a : Agenda) (slot : Nat) : a.tidy.highest slot = a.highest slot := rfl

/-! ### Heap mechanics -/

theorem tidy_indexSlot (a : Agenda) (slot : Nat) :
    (a.indexSlot slot).tidy = a.tidy.indexSlot slot := by
  unfold indexSlot
  rw [heap_tidy]
  cases a.heap[slot]? with
  | none => rfl
  | some x => simp only [tidy, NodeIndex.tidy_addSlots]

theorem tidy_unindexSlot (a : Agenda) (slot : Nat) :
    (a.unindexSlot slot).tidy = a.tidy.unindexSlot slot := by
  unfold unindexSlot
  rw [heap_tidy]
  cases a.heap[slot]? with
  | none => rfl
  | some x =>
    simp only [tidy, NodeIndex.tidy_dropSlots]
    rfl

theorem tidy_withHeap (a : Agenda) (heap : Array Entry) :
    ({ a with heap } : Agenda).tidy = { a.tidy with heap } := rfl

theorem tidy_swap (a : Agenda) (i j : Nat) : (a.swap i j).tidy = a.tidy.swap i j := by
  unfold swap
  split
  · rfl
  · simp only [tidy_indexSlot, tidy_withHeap, tidy_unindexSlot, heap_unindexSlot, heap_tidy]

theorem tidy_siftUp (a : Agenda) (slot : Nat) : (a.siftUp slot).tidy = a.tidy.siftUp slot := by
  induction a, slot using Agenda.siftUp.induct with
  | case1 a slot moves ih =>
    rw [siftUp, dif_pos moves, ih, tidy_swap]
    conv_rhs => rw [siftUp, dif_pos (by rwa [above_tidy])]
  | case2 a slot stays =>
    rw [siftUp, dif_neg stays]
    conv_rhs => rw [siftUp, dif_neg (by rwa [above_tidy])]

theorem tidy_siftDown (a : Agenda) (slot : Nat) :
    (a.siftDown slot).tidy = a.tidy.siftDown slot := by
  induction a, slot using Agenda.siftDown.induct with
  | case1 a slot stays =>
    rw [siftDown, dif_pos stays]
    conv_rhs => rw [siftDown, dif_pos (by rwa [highest_tidy])]
  | case2 a slot moves ih =>
    rw [siftDown, dif_neg moves, ih, tidy_swap]
    conv_rhs => rw [siftDown, dif_neg (by rwa [highest_tidy]), highest_tidy]

theorem tidy_restore (a : Agenda) (slot : Nat) : (a.restore slot).tidy = a.tidy.restore slot := by
  unfold restore
  rw [above_tidy]
  split
  · exact tidy_siftUp a slot
  · exact tidy_siftDown a slot

theorem tidy_takeLast (a : Agenda) : a.takeLast.tidy = a.tidy.takeLast := by
  simp only [takeLast, tidy_withHeap, tidy_unindexSlot, heap_unindexSlot, heap_tidy]

/-! ### Operations -/

theorem tidy_remove (a : Agenda) (id : EdgeId) :
    a.tidy.remove id = ((a.remove id).1, (a.remove id).2.tidy) := by
  unfold remove
  simp only [isEmpty_tidy, slotOf_tidy, heap_tidy, ← tidy_swap, ← tidy_takeLast, ← tidy_restore]
  split
  · rfl
  · split
    · rfl
    · split
      · rfl
      · split <;> rfl

theorem tidy_updateScore (a : Agenda) (id : EdgeId) (update : Score → Score × Double) :
    a.tidy.updateScore id update =
      ((a.updateScore id update).1, (a.updateScore id update).2.tidy) := by
  unfold updateScore
  simp only [slotOf_tidy, heap_tidy]
  split
  · rfl
  · split
    · rfl
    · simp only [tidy_restore]
      rfl

theorem Sound.touching_tidy (sound : a.Sound) : a.tidy.Touching := by
  constructor
  · intro n slot
    have slots : a.tidy.slotsOfNode.slotsAt n = a.slotsOfNode.slotsAt n := NodeIndex.slotsAt_tidy
    rw [slots]
    exact sound.touched n slot
  · intro n slots found
    exact NodeIndex.ne_empty_of_tidy found

/-- An agenda is sound when its index says the right things once it is tidy. -/
theorem sound_of_tidy (ordered : a.Ordered) (linked : a.Linked) (touching : a.tidy.Touching) :
    a.Sound := by
  refine sound_iff.mpr ⟨ordered, linked, fun n slot => ?_⟩
  have slots : a.tidy.slotsOfNode.slotsAt n = a.slotsOfNode.slotsAt n := NodeIndex.slotsAt_tidy
  rw [← slots]
  exact touching.mem_iff n slot

namespace Sound

variable (sound : a.Sound)

include sound

theorem ordered : a.Ordered :=
  (sound_iff.mp sound).1

theorem linked : a.Linked :=
  sound.indexed

theorem remove (id : EdgeId) : (a.remove id).2.Sound := by
  apply sound_of_tidy
  · exact sound.ordered.remove id
  · exact (sound.linked.entries_remove id).1
  · have touching := sound.touching_tidy.remove id
    rwa [tidy_remove] at touching

theorem updateScore (id : EdgeId) (update : Score → Score × Double) :
    (a.updateScore id update).2.Sound := by
  apply sound_of_tidy
  · exact sound.ordered.updateScore id update
  · exact (sound.linked.entries_updateScore id update).1
  · have touching := sound.touching_tidy.updateScore id update
    rwa [tidy_updateScore] at touching

/-- The candidates that touch a node are those whose entries list it. -/
theorem mem_adjacent {n : NodeId} :
    id ∈ a.adjacent n ↔ ∃ x ∈ a.toList, x.edge = id ∧ n ∈ x.nodes :=
  mem_adjacent_of_touches sound.touched

end Sound

end Agenda

end ScoredChaining
