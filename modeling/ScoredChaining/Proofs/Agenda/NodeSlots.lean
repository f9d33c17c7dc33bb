import Mathlib.Data.List.Nodup
import Mathlib.Logic.Basic
import ScoredChaining.Proofs.Agenda.Slots

/-!
The index from nodes to slots.

* `NodeIndex.Represents`: the slots of the index are exactly those of a relation, and no node is kept
  without slots. Adding and dropping a slot changes the relation by this slot, for the nodes that it
  is said of (`NodeIndex.Represents.addSlots`, `NodeIndex.Represents.dropSlots`).
* `Agenda.Touching`: the index represents which slots hold an entry that touches a node. A swap takes
  both slots out and puts them back, so that entries which share nodes do not disturb each other
  (`Agenda.Touching.swap`).
* `Agenda.Touching.add`, `Agenda.Touching.pop`, `Agenda.Touching.remove`,
  `Agenda.Touching.updateScore`: each operation keeps this, whether it succeeds or fails.
-/

namespace ScoredChaining

open Std

namespace NodeIndex

variable {m : NodeIndex} {n n' : NodeId} {slot slot' : Nat} {holds holds' : NodeId → Nat → Prop}

/-- The slots of a node. -/
def slotsAt (m : NodeIndex) (n : NodeId) : ExtTreeSet Nat :=
  (m[n]?).getD ∅

theorem slotsAt_addSlot : (m.addSlot slot n).slotsAt n' =
    if n = n' then (m.slotsAt n).insert slot else m.slotsAt n' := by
  simp only [slotsAt, addSlot, ExtTreeMap.getElem?_insert, NodeId.compare_eq_iff]
  split <;> rfl

theorem slotsAt_dropSlot : (m.dropSlot slot n).slotsAt n' =
    if n = n' then (m.slotsAt n).erase slot else m.slotsAt n' := by
  unfold dropSlot
  cases found : m[n]? with
  | none =>
    by_cases here : n = n'
    · subst here
      simp [slotsAt, found]
    · rw [if_neg here]
  | some slots =>
    simp only
    by_cases last : (slots.erase slot).isEmpty = true
    · rw [if_pos last, slotsAt, ExtTreeMap.getElem?_erase]
      by_cases here : n = n'
      · subst here
        simp [slotsAt, found, ExtTreeSet.isEmpty_iff.mp last]
      · simp [slotsAt, here]
    · rw [if_neg last, slotsAt, ExtTreeMap.getElem?_insert]
      by_cases here : n = n'
      · subst here
        simp [slotsAt, found]
      · simp [slotsAt, here]

/-- The slots of each node are those that the relation holds of, and there are no nodes without
slots. -/
structure Represents (m : NodeIndex) (holds : NodeId → Nat → Prop) : Prop where
  mem_iff : ∀ n slot, slot ∈ m.slotsAt n ↔ holds n slot
  nonempty : ∀ (n : NodeId) (slots : ExtTreeSet Nat), m[n]? = some slots → slots ≠ ∅

namespace Represents

theorem empty : Represents ∅ fun _ _ => False := by
  constructor
  · intro n slot
    simp [slotsAt]
  · intro n slots found
    simp at found

theorem congr (represents : m.Represents holds) (same : ∀ n slot, holds n slot ↔ holds' n slot) :
    m.Represents holds' :=
  ⟨fun n slot => (represents.mem_iff n slot).trans (same n slot), represents.nonempty⟩

theorem addSlot (represents : m.Represents holds) (slot : Nat) (n : NodeId) :
    (m.addSlot slot n).Represents fun n' slot' => holds n' slot' ∨ n' = n ∧ slot' = slot := by
  constructor
  · intro n' slot'
    rw [slotsAt_addSlot, ← represents.mem_iff]
    by_cases here : n = n'
    · subst here
      rw [if_pos rfl, ExtTreeSet.mem_insert, Nat.compare_eq_eq]
      grind
    · simp [here, Ne.symm here]
  · intro n' slots found
    rw [NodeIndex.addSlot, ExtTreeMap.getElem?_insert] at found
    split at found
    · obtain rfl := Option.some.inj found
      exact ExtTreeSet.insert_ne_empty
    · exact represents.nonempty n' slots found

theorem dropSlot (represents : m.Represents holds) (slot : Nat) (n : NodeId) :
    (m.dropSlot slot n).Represents fun n' slot' => holds n' slot' ∧ ¬(n' = n ∧ slot' = slot) := by
  constructor
  · intro n' slot'
    rw [slotsAt_dropSlot, ← represents.mem_iff]
    by_cases here : n = n'
    · subst here
      rw [if_pos rfl, ExtTreeSet.mem_erase, ne_eq, Nat.compare_eq_eq]
      grind
    · simp [here, Ne.symm here]
  · intro n' slots found
    unfold NodeIndex.dropSlot at found
    cases known : m[n]? with
    | none =>
      rw [known] at found
      exact represents.nonempty n' slots found
    | some old =>
      simp only [known] at found
      by_cases last : (old.erase slot).isEmpty = true
      · rw [if_pos last, ExtTreeMap.getElem?_erase] at found
        split at found
        · cases found
        · exact represents.nonempty n' slots found
      · rw [if_neg last, ExtTreeMap.getElem?_insert] at found
        split at found
        · obtain rfl := Option.some.inj found
          exact fun none => last (ExtTreeSet.isEmpty_iff.mpr none)
        · exact represents.nonempty n' slots found

/-- Adding a slot for each of the nodes. -/
theorem addSlots (represents : m.Represents holds) (slot : Nat) (nodes : List NodeId) :
    NodeIndex.Represents (nodes.foldl (fun m n => m.addSlot slot n) m) fun n slot' =>
      holds n slot' ∨ n ∈ nodes ∧ slot' = slot := by
  induction nodes generalizing m holds with
  | nil => exact represents.congr fun n slot' => by simp
  | cons first rest ih =>
    apply (ih (represents.addSlot slot first)).congr
    intro n slot'
    rw [List.mem_cons, or_and_right, or_assoc]

/-- Dropping a slot for each of the nodes. -/
theorem dropSlots (represents : m.Represents holds) (slot : Nat) (nodes : List NodeId) :
    NodeIndex.Represents (nodes.foldl (fun m n => m.dropSlot slot n) m) fun n slot' =>
      holds n slot' ∧ ¬(n ∈ nodes ∧ slot' = slot) := by
  induction nodes generalizing m holds with
  | nil => exact represents.congr fun n slot' => by simp
  | cons first rest ih =>
    apply (ih (represents.dropSlot slot first)).congr
    intro n slot'
    rw [List.mem_cons, or_and_right, not_or, and_assoc]

end Represents

end NodeIndex

namespace Agenda

variable {a : Agenda} {x y : Entry} {i j slot : Nat}

/-- The entry in the slot touches the node. -/
def Touches (a : Agenda) (n : NodeId) (slot : Nat) : Prop :=
  ∃ x, a.heap[slot]? = some x ∧ n ∈ x.nodes

/-- The index leads from each node to the slots whose entries touch it, and from nothing else. -/
def Touching (a : Agenda) : Prop :=
  a.slotsOfNode.Represents a.Touches

theorem Touching.empty : Touching Agenda.empty := by
  apply NodeIndex.Represents.empty.congr
  intro n slot
  simp [Touches, Agenda.empty]

/-! ### Heap mechanics -/

theorem represents_indexSlot {holds : NodeId → Nat → Prop}
    (represents : a.slotsOfNode.Represents holds) (at_ : a.heap[slot]? = some x) :
    (a.indexSlot slot).slotsOfNode.Represents fun n slot' =>
      holds n slot' ∨ n ∈ x.nodes ∧ slot' = slot := by
  simp only [indexSlot, at_]
  exact represents.addSlots slot x.nodes

theorem represents_unindexSlot {holds : NodeId → Nat → Prop}
    (represents : a.slotsOfNode.Represents holds) (at_ : a.heap[slot]? = some x) :
    (a.unindexSlot slot).slotsOfNode.Represents fun n slot' =>
      holds n slot' ∧ ¬(n ∈ x.nodes ∧ slot' = slot) := by
  simp only [unindexSlot, at_]
  exact represents.dropSlots slot x.nodes

theorem Touching.swap (touching : a.Touching) (boundI : i < a.heap.size)
    (boundJ : j < a.heap.size) : (a.swap i j).Touching := by
  by_cases same : i = j
  · rw [Agenda.swap, if_pos same]
    exact touching
  · obtain ⟨x, atI⟩ : ∃ x, a.heap[i]? = some x := ⟨_, Array.getElem?_eq_getElem boundI⟩
    obtain ⟨y, atJ⟩ : ∃ y, a.heap[j]? = some y := ⟨_, Array.getElem?_eq_getElem boundJ⟩
    have content := getElem?_heap_swap boundI boundJ
    rw [atI, atJ] at content
    have out : ((a.unindexSlot i).unindexSlot j).slotsOfNode.Represents fun n slot =>
        (a.Touches n slot ∧ ¬(n ∈ x.nodes ∧ slot = i)) ∧ ¬(n ∈ y.nodes ∧ slot = j) :=
      represents_unindexSlot (represents_unindexSlot touching atI) (by simpa using atJ)
    have swapped : (a.swap i j).slotsOfNode.Represents fun n slot =>
        (((a.Touches n slot ∧ ¬(n ∈ x.nodes ∧ slot = i)) ∧ ¬(n ∈ y.nodes ∧ slot = j)) ∨
          n ∈ y.nodes ∧ slot = i) ∨ n ∈ x.nodes ∧ slot = j := by
      rw [Agenda.swap, if_neg same]
      apply represents_indexSlot
      · apply represents_indexSlot
        · exact out
        · simpa using content i
      · simpa [Ne.symm same] using content j
    apply swapped.congr
    intro n slot
    unfold Touches
    rw [content]
    grind

theorem touching_keptBySwaps : KeptBySwaps Touching :=
  fun _ _ _ boundI boundJ touching => touching.swap boundI boundJ

theorem Touching.takeLast (touching : a.Touching) : a.takeLast.Touching := by
  cases last : a.heap[a.heap.size - 1]? with
  | none =>
    have outside := Array.getElem?_eq_none_iff.mp last
    have idle : a.heap = #[] := Array.size_eq_zero_iff.mp (by omega)
    rw [Agenda.takeLast, unindexSlot, last]
    apply NodeIndex.Represents.congr touching
    intro n slot
    simp [Touches, idle]
  | some x =>
    apply (represents_unindexSlot touching last).congr
    intro n slot
    simp only [Touches, heap_takeLast, Array.getElem?_pop]
    have bound := (Array.getElem?_eq_some_iff.mp last).1
    grind

/-- Taking an entry off at a slot. -/
theorem Touching.takeOff (touching : a.Touching) (bound : slot < a.heap.size) :
    ((a.swap slot (a.heap.size - 1)).takeLast).Touching := by
  apply Touching.takeLast
  apply touching.swap bound
  omega

/-! ### Operations -/

theorem Touching.add (touching : a.Touching) (id : EdgeId) (edge : Edge) (score : Score)
    (priority : Double) : (a.add id edge score priority).2.Touching := by
  unfold Agenda.add
  split
  · exact touching
  · apply touching_keptBySwaps.siftUp
    let x : Entry := ⟨id, distinct (edge.head :: edge.tail), score, priority⟩
    have indexed : ({ a with heap := a.heap.push x }.indexSlot a.heap.size).slotsOfNode.Represents
        fun n slot => a.Touches n slot ∨ n ∈ x.nodes ∧ slot = a.heap.size := by
      apply represents_indexSlot
      · exact touching
      · simp
    apply indexed.congr
    intro n slot
    simp only [Touches, heap_indexSlot, Array.getElem?_push]
    by_cases here : slot = a.heap.size
    · subst here
      simp [x]
    · simp [here]

theorem Touching.pop (touching : a.Touching) : a.pop.2.Touching := by
  unfold Agenda.pop
  split
  · exact touching
  · rename_i x first
    have taken := touching.takeOff (Array.getElem?_eq_some_iff.mp first).1
    simp only
    split
    · exact taken
    · exact touching_keptBySwaps.siftDown 0 taken

theorem Touching.remove (touching : a.Touching) (id : EdgeId) : (a.remove id).2.Touching := by
  unfold Agenda.remove
  split
  · exact touching
  · split
    · exact touching
    · rename_i slot _
      split
      · exact touching
      · rename_i x at_
        have taken := touching.takeOff (Array.getElem?_eq_some_iff.mp at_).1
        simp only
        split
        · exact touching_keptBySwaps.restore slot taken
        · exact taken

theorem Touching.updateScore (touching : a.Touching) (id : EdgeId)
    (update : Score → Score × Double) : (a.updateScore id update).2.Touching := by
  unfold Agenda.updateScore
  split
  · exact touching
  · rename_i slot _
    split
    · exact touching
    · rename_i x at_
      apply touching_keptBySwaps.restore
      apply NodeIndex.Represents.congr touching
      intro n slot'
      simp only [Touches, Array.getElem?_setIfInBounds]
      grind

end Agenda

end ScoredChaining
