import ScoredChaining.Proofs.Agenda.Slots

/-!
The heap order of an agenda. The bits of a priority say where it belongs, and nothing is assumed of
them.

* `totalRank_injective`, `totalRank_notANumber`: different bits have different places in the order,
  and those of a not-a-number are outside the infinities, on the side that its sign says.
* `Agenda.Ordered`: no entry comes above the one in its parent slot.
* `Agenda.OrderedBut`: the order of an agenda in which the entry of one slot may be out of place. It
  is what is left of the order when one slot is given another entry (`Agenda.Ordered.but`).
* `Agenda.OrderedBut.siftUp`, `Agenda.OrderedBut.siftDown`, `Agenda.OrderedBut.restore`: moving that
  entry puts the agenda in order again.
* `Agenda.Ordered.add`, `Agenda.Ordered.pop`, `Agenda.Ordered.remove`, `Agenda.Ordered.updateScore`:
  each operation keeps the order, whether it succeeds or fails.
* `Agenda.Ordered.root_highest`: no entry comes above the first one.
-/

namespace ScoredChaining

/-! ### Places in the total order -/

namespace Double

/-- The infinity with the sign. -/
def infinity (negative : Bool) : Double :=
  ⟨if negative then 0xfff0000000000000 else 0x7ff0000000000000⟩

/-- The sign bit is set. -/
def IsNegative (x : Double) : Prop :=
  0x8000000000000000 ≤ x.bits.toNat

/-- The bits beside the sign are above those of infinity. -/
def NotANumber (x : Double) : Prop :=
  0x7ff0000000000000 < x.bits.toNat % 0x8000000000000000

end Double

theorem totalRank_injective : Function.Injective totalRank := by
  rintro ⟨x⟩ ⟨y⟩ same
  have boundX := x.toNat_lt
  have boundY := y.toNat_lt
  have bits : x.toNat = y.toNat := by
    simp only [totalRank, Int.ofNat_eq_natCast] at same
    split at same <;> split at same <;> omega
  rw [UInt64.toNat_inj.mp bits]

/-- A not-a-number is above infinity, or below minus infinity if its sign bit is set. -/
theorem totalRank_notANumber {x : Double} (nan : x.NotANumber) :
    (¬x.IsNegative → totalRank (.infinity false) < totalRank x) ∧
      (x.IsNegative → totalRank x < totalRank (.infinity true)) := by
  have bound := x.bits.toNat_lt
  have infinity : totalRank (.infinity false) = 0x7ff0000000000000 := by decide
  have negative : totalRank (.infinity true) = -0x7ff0000000000001 := by decide
  rw [infinity, negative]
  simp only [Double.NotANumber, Double.IsNegative, totalRank, Int.ofNat_eq_natCast] at nan ⊢
  constructor <;> intro sign <;> split <;> omega

/-! ### The order of the heap -/

namespace Agenda

variable {a b : Agenda} {i j k slot : Nat} {x : Entry}

/-- A place below the total order. -/
def bottomRank : Int :=
  -0x8000000000000001

theorem bottomRank_le_totalRank (priority : Double) : bottomRank ≤ totalRank priority := by
  have bound := priority.bits.toNat_lt
  simp only [bottomRank, totalRank, Int.ofNat_eq_natCast]
  split <;> omega

/-- The place in the total order of the priority in a slot. A slot without an entry comes below all
others. -/
def rankAt (a : Agenda) (slot : Nat) : Int :=
  match a.heap[slot]? with
  | some x => totalRank x.priority
  | none => bottomRank

theorem rankAt_of_getElem? (at_ : a.heap[slot]? = some x) :
    a.rankAt slot = totalRank x.priority := by
  rw [rankAt, at_]

theorem bottomRank_le_rankAt (a : Agenda) (slot : Nat) : bottomRank ≤ a.rankAt slot := by
  unfold rankAt
  split
  · exact bottomRank_le_totalRank _
  · exact Int.le_refl _

/-- A slot without an entry comes above no other. -/
theorem rankAt_le_of_size_le (outside : a.heap.size ≤ slot) (b : Agenda) (k : Nat) :
    a.rankAt slot ≤ b.rankAt k := by
  rw [rankAt, Array.getElem?_eq_none outside]
  exact b.bottomRank_le_rankAt k

theorem above_iff : a.above i j = true ↔ j < a.heap.size ∧ a.rankAt j < a.rankAt i := by
  unfold above
  cases atI : a.heap[i]? with
  | none =>
    have lowest := a.rankAt_le_of_size_le (Array.getElem?_eq_none_iff.mp atI) a j
    simp only [Bool.false_eq_true, false_iff]
    omega
  | some x =>
    cases atJ : a.heap[j]? with
    | none =>
      have outside := Array.getElem?_eq_none_iff.mp atJ
      simp only [Bool.false_eq_true, false_iff]
      omega
    | some y =>
      have bound := (Array.getElem?_eq_some_iff.mp atJ).1
      simp only [rankAt_of_getElem? atI, rankAt_of_getElem? atJ, ranksAbove_iff, bound, true_and]

/-- No entry comes above the one in its parent slot. -/
def Ordered (a : Agenda) : Prop :=
  ∀ i, 0 < i → a.rankAt i ≤ a.rankAt (parent i)

theorem Ordered.empty : Ordered Agenda.empty := by
  intro i _
  simp [rankAt, Agenda.empty]

/-- The order apart from the entry of one slot: all others are in order, also those below the slot
with the one above it. -/
structure OrderedBut (a : Agenda) (slot : Nat) : Prop where
  others : ∀ i, 0 < i → i ≠ slot → parent i ≠ slot → a.rankAt i ≤ a.rankAt (parent i)
  across : 0 < slot → ∀ i, 0 < i → parent i = slot → a.rankAt i ≤ a.rankAt (parent slot)

theorem parent_lt (positive : 0 < i) : parent i < i := by
  unfold parent
  omega

/-- What is left of the order when a slot has another entry, and slots at the end have none. -/
theorem Ordered.but (ordered : a.Ordered)
    (same : ∀ k ≠ slot, k < b.heap.size → b.heap[k]? = a.heap[k]?) : b.OrderedBut slot := by
  have rank : ∀ k ≠ slot, k < b.heap.size → b.rankAt k = a.rankAt k := by
    intro k differ bound
    rw [rankAt, rankAt, same k differ bound]
  constructor
  · intro i positive differ differ'
    by_cases bound : i < b.heap.size
    · have boundParent := Nat.lt_trans (parent_lt positive) bound
      rw [rank i differ bound, rank _ differ' boundParent]
      exact ordered i positive
    · exact rankAt_le_of_size_le (Nat.le_of_not_lt bound) _ _
  · intro positiveSlot i positive below
    by_cases bound : i < b.heap.size
    · have up := parent_lt positive
      have up' := parent_lt positiveSlot
      rw [rank i (by omega) bound, rank (parent slot) (by omega) (by omega)]
      exact Int.le_trans (ordered i positive) (below ▸ ordered slot positiveSlot)
    · exact rankAt_le_of_size_le (Nat.le_of_not_lt bound) _ _

/-- When the entry of the slot is not out of place, the whole agenda is in order. -/
theorem OrderedBut.ordered (but : a.OrderedBut slot)
    (above : 0 < slot → a.rankAt slot ≤ a.rankAt (parent slot))
    (below : ∀ i, 0 < i → parent i = slot → a.rankAt i ≤ a.rankAt slot) : a.Ordered := by
  intro i positive
  by_cases here : i = slot
  · subst here
    exact above positive
  · by_cases child : parent i = slot
    · rw [child]
      exact below i positive child
    · exact but.others i positive here child

theorem rankAt_le_of_not_above (order : j ≤ i) (stays : ¬a.above i j = true) :
    a.rankAt i ≤ a.rankAt j := by
  by_cases bound : i < a.heap.size
  · apply Int.not_lt.mp
    intro higher
    exact stays (above_iff.mpr ⟨Nat.lt_of_le_of_lt order bound, higher⟩)
  · exact rankAt_le_of_size_le (Nat.le_of_not_lt bound) _ _

/-- The higher one of two slots. -/
theorem rankAt_le_ite_above (a : Agenda) (order : j ≤ i) :
    a.rankAt i ≤ a.rankAt (if a.above i j then i else j) ∧
      a.rankAt j ≤ a.rankAt (if a.above i j then i else j) := by
  split
  · rename_i isAbove
    exact ⟨Int.le_refl _, Int.le_of_lt (above_iff.mp isAbove).2⟩
  · rename_i stays
    exact ⟨rankAt_le_of_not_above order stays, Int.le_refl _⟩

theorem parent_highest (a : Agenda) (moves : a.highest slot ≠ slot) :
    parent (a.highest slot) = slot := by
  unfold highest at moves ⊢
  unfold parent
  grind

/-! ### Moving an entry -/

theorem rankAt_swap (boundI : i < a.heap.size) (boundJ : j < a.heap.size) (k : Nat) :
    (a.swap i j).rankAt k =
      if k = i then a.rankAt j else if k = j then a.rankAt i else a.rankAt k := by
  have content := getElem?_heap_swap boundI boundJ k
  by_cases isI : k = i
  · rw [if_pos isI] at content ⊢
    rw [rankAt, rankAt, content]
  · by_cases isJ : k = j
    · rw [if_neg isI, if_pos isJ] at content ⊢
      rw [rankAt, rankAt, content]
    · rw [if_neg isI, if_neg isJ] at content ⊢
      rw [rankAt, rankAt, content]

theorem OrderedBut.siftUp (but : a.OrderedBut slot)
    (below : ∀ i, 0 < i → parent i = slot → a.rankAt i ≤ a.rankAt slot) :
    (a.siftUp slot).Ordered := by
  induction a, slot using Agenda.siftUp.induct with
  | case1 a slot moves ih =>
    rw [Agenda.siftUp, dif_pos moves]
    obtain ⟨positive, isAbove⟩ := moves
    obtain ⟨boundParent, higher⟩ := above_iff.mp isAbove
    have up := parent_lt positive
    have rank := rankAt_swap (lt_size_of_above isAbove) boundParent
    apply ih
    · constructor
      · intro i positiveI differ differ'
        have notSlot : i ≠ slot := by
          rintro rfl
          exact differ' rfl
        rw [rank i, if_neg notSlot, if_neg differ, rank (parent i), if_neg differ']
        by_cases child : parent i = slot
        · rw [if_pos child]
          exact but.across positive i positiveI child
        · rw [if_neg child]
          exact but.others i positiveI notSlot child
      · intro positiveParent i positiveI sibling
        have upUp := parent_lt positiveParent
        have top : a.rankAt (parent slot) ≤ a.rankAt (parent (parent slot)) :=
          but.others _ positiveParent (by omega) (by omega)
        rw [rank (parent (parent slot)), if_neg (by omega), if_neg (by omega)]
        by_cases here : i = slot
        · rw [rank i, if_pos here]
          exact top
        · have upI := parent_lt positiveI
          have atParent := but.others i positiveI here (by omega)
          rw [sibling] at atParent
          rw [rank i, if_neg here, if_neg (by omega)]
          exact Int.le_trans atParent top
    · intro i positiveI sibling
      rw [rank (parent slot), if_neg (by omega), if_pos rfl]
      by_cases here : i = slot
      · rw [rank i, if_pos here]
        exact Int.le_of_lt higher
      · have upI := parent_lt positiveI
        have atParent := but.others i positiveI here (by omega)
        rw [sibling] at atParent
        rw [rank i, if_neg here, if_neg (by omega)]
        exact Int.le_trans atParent (Int.le_of_lt higher)
  | case2 a slot stays =>
    rw [Agenda.siftUp, dif_neg stays]
    refine but.ordered ?_ below
    intro positive
    apply rankAt_le_of_not_above (Nat.le_of_lt (parent_lt positive))
    intro isAbove
    exact stays ⟨positive, isAbove⟩

/-- The highest slot comes below neither the slot nor a slot right below it. -/
theorem rankAt_le_highest (a : Agenda) (slot : Nat) : a.rankAt slot ≤ a.rankAt (a.highest slot) ∧
    ∀ i, 0 < i → parent i = slot → a.rankAt i ≤ a.rankAt (a.highest slot) := by
  obtain ⟨left, stays⟩ := a.rankAt_le_ite_above (i := 2 * slot + 1) (j := slot) (by omega)
  have between : (if a.above (2 * slot + 1) slot then 2 * slot + 1 else slot) ≤ 2 * slot + 1 := by
    split <;> omega
  obtain ⟨right, best⟩ := a.rankAt_le_ite_above (Nat.le_succ_of_le between)
  constructor
  · exact Int.le_trans stays best
  · intro i positive child
    unfold parent at child
    obtain rfl | rfl : i = 2 * slot + 1 ∨ i = 2 * slot + 2 := by omega
    · exact Int.le_trans left best
    · exact right

theorem OrderedBut.siftDown (but : a.OrderedBut slot)
    (above : 0 < slot → a.rankAt slot ≤ a.rankAt (parent slot)) : (a.siftDown slot).Ordered := by
  induction a, slot using Agenda.siftDown.induct with
  | case1 a slot stays =>
    rw [Agenda.siftDown, dif_pos stays]
    apply but.ordered above
    intro i positive child
    have highest := (a.rankAt_le_highest slot).2 i positive child
    rwa [stays] at highest
  | case2 a slot moves ih =>
    rw [Agenda.siftDown, dif_neg moves]
    obtain ⟨stays, children⟩ := a.rankAt_le_highest slot
    obtain ⟨below, bound⟩ := highest_bounds moves
    have child := a.parent_highest moves
    generalize a.highest slot = best at *
    have rank := rankAt_swap (Nat.lt_trans below bound) bound
    apply ih
    · constructor
      · intro i positive differ differ'
        by_cases here : i = slot
        · subst here
          have up := parent_lt positive
          rw [rank i, if_pos rfl, rank (parent i), if_neg (by omega), if_neg differ']
          exact but.across positive best (by omega) child
        · rw [rank i, if_neg here, if_neg differ, rank (parent i), if_neg differ']
          by_cases sibling : parent i = slot
          · rw [if_pos sibling]
            exact children i positive sibling
          · rw [if_neg sibling]
            exact but.others i positive here sibling
      · intro _ i positive grandchild
        have up := parent_lt positive
        have inPlace := but.others i positive (by omega) (by omega)
        rw [rank i, if_neg (by omega), if_neg (by omega), child, rank slot, if_pos rfl]
        rwa [grandchild] at inPlace
    · intro _
      rw [rank best, if_neg (by omega), if_pos rfl, child, rank slot, if_pos rfl]
      exact stays

theorem OrderedBut.restore (but : a.OrderedBut slot) : (a.restore slot).Ordered := by
  unfold Agenda.restore
  split
  · rename_i moves
    obtain ⟨positive, isAbove⟩ := Bool.and_eq_true_iff.mp moves
    apply but.siftUp
    intro i positiveI child
    have higher := (above_iff.mp isAbove).2
    have inOrder := but.across (of_decide_eq_true positive) i positiveI child
    exact Int.le_trans inOrder (Int.le_of_lt higher)
  · rename_i stays
    apply but.siftDown
    intro positive
    apply rankAt_le_of_not_above (Nat.le_of_lt (parent_lt positive))
    intro isAbove
    exact stays (Bool.and_eq_true_iff.mpr ⟨decide_eq_true positive, isAbove⟩)

/-! ### Operations -/

/-- Moving an entry to the end and taking it off leaves all other slots as they are. -/
theorem heap_takeOff (bound : slot < a.heap.size) (differ : k ≠ slot)
    (before : k < a.heap.size - 1) :
    ((a.swap slot (a.heap.size - 1)).takeLast).heap[k]? = a.heap[k]? := by
  have boundLast : a.heap.size - 1 < a.heap.size := by omega
  rw [heap_takeLast, heap_swap, Array.swapIfInBounds_def, dif_pos bound, dif_pos boundLast,
    Array.getElem?_pop, Array.size_swap, if_pos before, Array.getElem?_swap, if_neg (by omega),
    if_neg differ.symm]

theorem size_takeOff (a : Agenda) (slot : Nat) :
    ((a.swap slot (a.heap.size - 1)).takeLast).heap.size = a.heap.size - 1 := by
  simp

theorem Ordered.takeOff (ordered : a.Ordered) (bound : slot < a.heap.size) :
    ((a.swap slot (a.heap.size - 1)).takeLast).OrderedBut slot := by
  apply ordered.but
  intro k differ before
  rw [size_takeOff] at before
  exact heap_takeOff bound differ before

theorem Ordered.add (ordered : a.Ordered) (id : EdgeId) (edge : Edge) (score : Score)
    (priority : Double) : (a.add id edge score priority).2.Ordered := by
  unfold Agenda.add
  split
  · exact ordered
  · let x : Entry := ⟨id, distinct (edge.head :: edge.tail), score, priority⟩
    have but : ({ a with heap := a.heap.push x }.indexSlot a.heap.size).OrderedBut a.heap.size := by
      apply ordered.but
      intro k differ _
      rw [heap_indexSlot, Array.getElem?_push, if_neg differ]
    apply but.siftUp
    intro i positive child
    have up := parent_lt positive
    exact rankAt_le_of_size_le (by simp; omega) _ _

theorem Ordered.pop (ordered : a.Ordered) : a.pop.2.Ordered := by
  unfold Agenda.pop
  split
  · exact ordered
  · rename_i x first
    have but := ordered.takeOff (Array.getElem?_eq_some_iff.mp first).1
    simp only
    split
    · rename_i idle
      intro i _
      have none : (a.swap 0 (a.heap.size - 1)).takeLast.heap.size = 0 := by
        rw [Array.isEmpty_iff.mp idle, Array.size_empty]
      exact rankAt_le_of_size_le (by omega) _ _
    · apply but.siftDown
      intro positive
      exact absurd positive (Nat.lt_irrefl 0)

theorem Ordered.remove (ordered : a.Ordered) (id : EdgeId) : (a.remove id).2.Ordered := by
  unfold Agenda.remove
  split
  · exact ordered
  · split
    · exact ordered
    · rename_i slot _
      split
      · exact ordered
      · rename_i x at_
        have bound := (Array.getElem?_eq_some_iff.mp at_).1
        have but := ordered.takeOff bound
        simp only
        split
        · exact but.restore
        · rename_i last
          rw [size_takeOff] at last
          -- The slot was the last one, so the entries that are left are in their places.
          apply but.ordered
          · intro _
            exact rankAt_le_of_size_le (by simp; omega) _ _
          · intro i positive child
            have up := parent_lt positive
            exact rankAt_le_of_size_le (by simp; omega) _ _

theorem Ordered.updateScore (ordered : a.Ordered) (id : EdgeId)
    (update : Score → Score × Double) : (a.updateScore id update).2.Ordered := by
  unfold Agenda.updateScore
  split
  · exact ordered
  · rename_i slot _
    split
    · exact ordered
    · have but (x : Entry) : OrderedBut { a with heap := a.heap.setIfInBounds slot x } slot := by
        apply ordered.but
        intro k differ _
        rw [Array.getElem?_setIfInBounds_ne differ.symm]
      exact (but _).restore

/-! ### The first entry -/

/-- No entry of an agenda in order comes above the first one. -/
theorem Ordered.rankAt_le_root (ordered : a.Ordered) (i : Nat) : a.rankAt i ≤ a.rankAt 0 := by
  induction i using Nat.strongRecOn with
  | ind i ih =>
    by_cases root : i = 0
    · subst root
      exact Int.le_refl _
    · have positive := Nat.pos_of_ne_zero root
      exact Int.le_trans (ordered i positive) (ih _ (parent_lt positive))

theorem Ordered.root_highest (ordered : a.Ordered) {y : Entry} (first : a.heap[0]? = some x)
    (mem : y ∈ a.toList) : totalRank y.priority ≤ totalRank x.priority := by
  obtain ⟨i, at_⟩ := Array.mem_iff_getElem?.mp (Array.mem_toList_iff.mp mem)
  have below := ordered.rankAt_le_root i
  rwa [rankAt_of_getElem? at_, rankAt_of_getElem? first] at below

end Agenda

end ScoredChaining
