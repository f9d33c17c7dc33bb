import Mathlib.Data.List.Nodup
import Mathlib.Data.List.Perm.Subperm
import Mathlib.Data.Set.Function
import Mathlib.Order.Interval.Set.Defs
import ScoredChaining.Proofs.Agenda.Contents

/-!
The check of an agenda, and what it stands for.

* `Agenda.Sound`: the heap is in order and both indices are exact.
* `Agenda.check_eq_ok_iff`: the check passes just the sound agendas, whatever made them. One half of
  this is a pigeonhole argument: the check looks up what the entries say in the indices
  (`Agenda.Placed`), and of what the indices say it compares the counts only, those of the pairs of a
  node and a slot that the index lists (`Agenda.indexed`) and that the entries do (`Agenda.touched`).
* `Agenda.AddedWith`: the edge that a pending candidate was added with.
* `Agenda.performAll_exact`: after any sequence of calls the heap is in order, the index from
  candidates to slots is a bijection, and the index from nodes to slots lists just the slots whose
  candidates were added with an edge that has the node as its head or in its tail.
-/

namespace ScoredChaining.Agenda

open Std

variable {a : Agenda} {id : EdgeId} {edge : Edge} {operations : List Operation}

/-! ### The check -/

/-- What an agenda has to be: the heap is in order, and both indices are exact. -/
structure Sound (a : Agenda) : Prop where
  /-- No entry comes above the one in its parent slot. -/
  order : ∀ (slot : Nat) (x y : Entry), 0 < slot → a.heap[slot]? = some x →
    a.heap[parent slot]? = some y → totalRank x.priority ≤ totalRank y.priority
  /-- The index leads from each pending candidate to its slot, and from nothing else. -/
  indexed : ∀ id slot, a.slotOf[id]? = some slot ↔
    ∃ x : Entry, a.heap[slot]? = some x ∧ x.edge = id
  /-- No candidate is in two slots. -/
  single : ∀ (i j : Nat) (x y : Entry), a.heap[i]? = some x → a.heap[j]? = some y →
    x.edge = y.edge → i = j
  /-- The index leads from each node to the slots whose entries list it, and from nothing else. -/
  touched : ∀ n slot, slot ∈ a.slotsOfNode.slotsAt n ↔
    ∃ x : Entry, a.heap[slot]? = some x ∧ n ∈ x.nodes

theorem ordered_iff : a.Ordered ↔ ∀ (slot : Nat) (x y : Entry), 0 < slot → a.heap[slot]? = some x →
    a.heap[parent slot]? = some y → totalRank x.priority ≤ totalRank y.priority := by
  constructor
  · intro ordered slot x y positive atX atY
    have rank := ordered slot positive
    rwa [rankAt_of_getElem? atX, rankAt_of_getElem? atY] at rank
  · intro order slot positive
    by_cases bound : slot < a.heap.size
    · have boundParent := Nat.lt_trans (parent_lt positive) bound
      have atX := Array.getElem?_eq_getElem bound
      have atY := Array.getElem?_eq_getElem boundParent
      rw [rankAt_of_getElem? atX, rankAt_of_getElem? atY]
      exact order slot _ _ positive atX atY
    · exact rankAt_le_of_size_le (Nat.le_of_not_lt bound) _ _

theorem sound_iff : a.Sound ↔ a.Ordered ∧ a.Linked ∧
    ∀ n slot, slot ∈ a.slotsOfNode.slotsAt n ↔ a.Touches n slot := by
  constructor
  · intro sound
    exact ⟨ordered_iff.mpr sound.order, sound.indexed, sound.touched⟩
  · rintro ⟨ordered, linked, touching⟩
    exact ⟨ordered_iff.mp ordered, linked, fun _ _ _ _ => linked.slot_unique, touching⟩

theorem Valid.sound (valid : a.Valid) : a.Sound :=
  sound_iff.mpr ⟨valid.ordered, valid.linked, valid.touching.mem_iff⟩

theorem placeViolation?_eq_none_iff {slot : Nat} : a.placeViolation? slot = none ↔
    ∀ x y : Entry, 0 < slot → a.heap[slot]? = some x → a.heap[parent slot]? = some y →
      totalRank x.priority ≤ totalRank y.priority := by
  unfold placeViolation?
  cases a.heap[slot]? <;> cases a.heap[parent slot]? <;> simp [ranksAbove_iff]

theorem orderViolation?_eq_none_iff : a.orderViolation? = none ↔ a.Ordered := by
  rw [orderViolation?, List.findSome?_eq_none_iff, ordered_iff]
  constructor
  · intro none slot x y positive atX
    have bound := (Array.getElem?_eq_some_iff.mp atX).1
    exact placeViolation?_eq_none_iff.mp (none slot (List.mem_range.mpr bound)) x y positive atX
  · intro order slot _
    exact placeViolation?_eq_none_iff.mpr fun x y => order slot x y

/-- Every entry is where the indices say. -/
def Placed (a : Agenda) : Prop :=
  ∀ slot x, a.heap[slot]? = some x →
    a.slotOf[x.edge]? = some slot ∧ ∀ n ∈ x.nodes, slot ∈ a.slotsOfNode.slotsAt n

theorem entryViolation?_eq_none_iff {slot : Nat} {x : Entry} :
    a.entryViolation? slot x = none ↔
      a.slotOf[x.edge]? = some slot ∧ ∀ n ∈ x.nodes, slot ∈ a.slotsOfNode.slotsAt n := by
  unfold entryViolation?
  split
  · rename_i elsewhere
    simp [elsewhere]
  · rename_i here
    rw [Decidable.not_not] at here
    simp [here, List.findSome?_eq_none_iff, NodeIndex.slotsAt]

theorem indexViolation?_eq_none_iff : a.indexViolation? = none ↔ a.Placed := by
  rw [indexViolation?, List.findSome?_eq_none_iff]
  constructor
  · intro none slot x at_
    have bound := (Array.getElem?_eq_some_iff.mp at_).1
    have sound := none slot (List.mem_range.mpr bound)
    rw [at_, Option.bind_some] at sound
    exact entryViolation?_eq_none_iff.mp sound
  · intro placed slot _
    cases at_ : a.heap[slot]? with
    | none => rfl
    | some x =>
      rw [Option.bind_some]
      exact entryViolation?_eq_none_iff.mpr (placed slot x at_)

theorem Linked.size_slotOf (linked : a.Linked) : a.slotOf.size = a.heap.size := by
  have perm : a.slotOf.keys.Perm a.pending := by
    apply (List.perm_ext_iff_of_nodup ExtTreeMap.nodup_keys linked.nodup_pending).mpr
    intro id
    rw [ExtTreeMap.mem_keys, ← linked.contains_iff, contains, ExtTreeMap.contains_iff_mem]
  rw [← ExtTreeMap.length_keys, perm.length_eq, pending, toList, List.length_map,
    Array.length_toList]

/-- An index that leads to every entry, and has no more candidates than there are entries, leads to
nothing else. -/
theorem Placed.linked (placed : a.Placed) (size : a.slotOf.size = a.heap.size) : a.Linked := by
  have nodup : a.pending.Nodup := by
    apply nodup_pending_of_unique
    intro i j x y atI atJ same
    have fromX := (placed i x atI).1
    have fromY := (placed j y atJ).1
    rw [← same, fromX] at fromY
    exact Option.some.inj fromY
  have keys : a.pending ⊆ a.slotOf.keys := by
    intro id pending
    obtain ⟨x, mem, rfl⟩ := List.mem_map.mp pending
    obtain ⟨slot, at_⟩ := Array.mem_iff_getElem?.mp (Array.mem_toList_iff.mp mem)
    rw [ExtTreeMap.mem_keys, ExtTreeMap.mem_iff_isSome_getElem?, (placed slot x at_).1]
    rfl
  have perm : a.pending.Perm a.slotOf.keys := by
    apply (List.subperm_of_subset nodup keys).perm_of_length_le
    rw [ExtTreeMap.length_keys, size, pending, toList, List.length_map, Array.length_toList]
  intro id slot
  constructor
  · intro indexed
    have key : id ∈ a.slotOf.keys := by
      rw [ExtTreeMap.mem_keys, ExtTreeMap.mem_iff_isSome_getElem?, indexed]
      rfl
    obtain ⟨x, mem, rfl⟩ := List.mem_map.mp (perm.mem_iff.mpr key)
    obtain ⟨slot', at_⟩ := Array.mem_iff_getElem?.mp (Array.mem_toList_iff.mp mem)
    obtain rfl := Option.some.inj (indexed.symm.trans (placed slot' x at_).1)
    exact ⟨x, at_, rfl⟩
  · rintro ⟨x, at_, rfl⟩
    exact (placed slot x at_).1

/-- The pairs of a node and a slot that the index lists. -/
def indexed (a : Agenda) : List (NodeId × Nat) :=
  a.slotsOfNode.toList.flatMap fun (n, slots) => slots.toList.map fun slot => (n, slot)

/-- The pairs of a node and a slot such that the entry in the slot touches the node. -/
def touched (a : Agenda) : List (NodeId × Nat) :=
  a.toList.zipIdx.flatMap fun (x, slot) => x.nodes.map fun n => (n, slot)

theorem foldl_add_length {α β : Type} (f : α → List β) (l : List α) (n : Nat) :
    l.foldl (fun total x => total + (f x).length) n = n + (l.flatMap f).length := by
  induction l generalizing n with
  | nil => rfl
  | cons x rest ih =>
    rw [List.foldl_cons, ih, List.flatMap_cons, List.length_append, Nat.add_assoc]

theorem pairs_eq_length_indexed (a : Agenda) : a.slotsOfNode.pairs = a.indexed.length := by
  have counted := foldl_add_length (fun (p : NodeId × ExtTreeSet Nat) =>
    p.2.toList.map fun slot => (p.1, slot)) a.slotsOfNode.toList 0
  simp only [List.length_map, ExtTreeSet.length_toList, Nat.zero_add] at counted
  rw [NodeIndex.pairs, ExtTreeMap.foldl_eq_foldl_toList, counted]
  rfl

theorem foldl_nodes_eq_length_touched (a : Agenda) :
    a.toList.foldl (fun n e => n + e.nodes.length) 0 = a.touched.length := by
  have counted := foldl_add_length (fun (p : Entry × Nat) => p.1.nodes.map fun n => (n, p.2))
    a.toList.zipIdx 0
  simp only [List.length_map, Nat.zero_add] at counted
  rw [touched, ← counted]
  conv_lhs => rw [← List.zipIdx_map_fst 0 a.toList, List.foldl_map]

theorem nodup_indexed (a : Agenda) : a.indexed.Nodup := by
  apply List.nodup_flatMap.mpr
  constructor
  · rintro ⟨n, slots⟩ _
    have distinctSlots : slots.toList.Nodup :=
      slots.distinct_toList.imp fun differ same => differ (by simp [same])
    exact distinctSlots.map fun i j same => congrArg Prod.snd same
  · refine ExtTreeMap.distinct_keys_toList.imp ?_
    rintro ⟨n, slots⟩ ⟨n', slots'⟩ differ ⟨m, slot⟩ left right
    obtain ⟨_, _, same⟩ := List.mem_map.mp left
    obtain ⟨_, _, same'⟩ := List.mem_map.mp right
    apply differ
    rw [NodeId.compare_eq_iff]
    exact (congrArg Prod.fst same).trans (congrArg Prod.fst same').symm

/-- When no entry lists a node twice, no pair is listed twice. -/
theorem nodup_touched (once : ∀ x ∈ a.toList, x.nodes.Nodup) : a.touched.Nodup := by
  apply List.nodup_flatMap.mpr
  constructor
  · rintro ⟨x, slot⟩ mem
    have entry : x ∈ a.toList := List.mem_of_getElem? (List.mem_zipIdx_iff_getElem?.mp mem)
    exact (once x entry).map fun n n' same => congrArg Prod.fst same
  · have slots : a.toList.zipIdx.Pairwise fun p q => p.2 ≠ q.2 := by
      apply List.pairwise_map.mp
      rw [List.zipIdx_map_snd]
      exact List.nodup_range'
    refine slots.imp ?_
    rintro ⟨x, i⟩ ⟨y, j⟩ differ ⟨n, slot⟩ left right
    obtain ⟨_, _, same⟩ := List.mem_map.mp left
    obtain ⟨_, _, same'⟩ := List.mem_map.mp right
    exact differ ((congrArg Prod.snd same).trans (congrArg Prod.snd same').symm)

theorem mem_indexed {n : NodeId} {slot : Nat} :
    (n, slot) ∈ a.indexed ↔ slot ∈ a.slotsOfNode.slotsAt n := by
  simp only [indexed, List.mem_flatMap, List.mem_map, Prod.mk.injEq, Prod.exists,
    ExtTreeMap.mem_toList_iff_getElem?_eq_some, ExtTreeSet.mem_toList, NodeIndex.slotsAt]
  constructor
  · rintro ⟨_, slots, found, _, mem, rfl, rfl⟩
    rwa [found]
  · intro mem
    cases found : a.slotsOfNode[n]? with
    | none =>
      rw [found] at mem
      exact absurd mem ExtTreeSet.not_mem_empty
    | some slots =>
      rw [found] at mem
      exact ⟨n, slots, found, slot, mem, rfl, rfl⟩

theorem mem_touched {n : NodeId} {slot : Nat} : (n, slot) ∈ a.touched ↔ a.Touches n slot := by
  simp only [touched, List.mem_flatMap, List.mem_map, Prod.mk.injEq, Prod.exists,
    List.mem_zipIdx_iff_getElem?, toList, Array.getElem?_toList, Touches]
  constructor
  · rintro ⟨x, _, at_, _, touches, rfl, rfl⟩
    exact ⟨x, at_, touches⟩
  · rintro ⟨x, at_, touches⟩
    exact ⟨x, slot, at_, n, touches, rfl, rfl⟩

/-- The check compares the sizes of both indices with what the entries say, and looks up every entry
in them. -/
theorem check_eq_ok_iff_counts : a.check = .ok () ↔
    a.Ordered ∧ a.slotOf.size = a.heap.size ∧ a.Placed ∧ a.indexed.length = a.touched.length := by
  rw [← orderViolation?_eq_none_iff, ← indexViolation?_eq_none_iff, ← pairs_eq_length_indexed,
    ← foldl_nodes_eq_length_touched]
  unfold check violation?
  cases a.orderViolation? with
  | some violation => simp
  | none =>
    by_cases size : a.slotOf.size = a.heap.size
    · cases a.indexViolation? with
      | some violation => simp [size]
      | none =>
        by_cases counts : a.slotsOfNode.pairs =
            a.toList.foldl (fun n e => n + e.nodes.length) 0
        · simp [size, counts]
        · simp [size, counts]
    · simp [size]

/-- The entries of a sound agenda touch the pairs that the index lists. -/
theorem Sound.indexed_perm_touched (sound : a.Sound) (once : ∀ x ∈ a.toList, x.nodes.Nodup) :
    a.indexed.Perm a.touched := by
  apply (List.perm_ext_iff_of_nodup a.nodup_indexed (nodup_touched once)).mpr
  rintro ⟨n, slot⟩
  rw [mem_indexed, mem_touched]
  exact sound.touched n slot

theorem Sound.placed (sound : a.Sound) : a.Placed :=
  fun slot x at_ => ⟨(sound.indexed x.edge slot).mpr ⟨x, at_, rfl⟩,
    fun n touches => (sound.touched n slot).mpr ⟨x, at_, touches⟩⟩

/-- The check finds nothing wrong with a sound agenda. -/
theorem Sound.check (sound : a.Sound) (once : ∀ x ∈ a.toList, x.nodes.Nodup) :
    a.check = .ok () := by
  obtain ⟨ordered, linked, _⟩ := sound_iff.mp sound
  exact check_eq_ok_iff_counts.mpr
    ⟨ordered, linked.size_slotOf, sound.placed, (sound.indexed_perm_touched once).length_eq⟩

/-- An index from nodes that leads to every entry, and lists no more pairs than the entries touch,
leads to nothing else. -/
theorem Placed.mem_slotsAt_iff (placed : a.Placed) (once : ∀ x ∈ a.toList, x.nodes.Nodup)
    (counts : a.indexed.length = a.touched.length) (n : NodeId) (slot : Nat) :
    slot ∈ a.slotsOfNode.slotsAt n ↔ a.Touches n slot := by
  have listed : a.touched ⊆ a.indexed := by
    rintro ⟨n, slot⟩ touched
    obtain ⟨x, at_, touches⟩ := mem_touched.mp touched
    exact mem_indexed.mpr ((placed slot x at_).2 n touches)
  have perm : a.touched.Perm a.indexed :=
    (List.subperm_of_subset (nodup_touched once) listed).perm_of_length_le counts.le
  rw [← mem_indexed, ← mem_touched, perm.mem_iff]

/-- The check passes just the sound agendas, among all agendas whose entries list no node twice. It
looks up what the entries say in both indices, and only counts what the indices say: an index that
says all this, and no more in number, says nothing else. -/
theorem check_eq_ok_iff (once : ∀ x ∈ a.toList, x.nodes.Nodup) :
    a.check = .ok () ↔ a.Sound := by
  constructor
  · intro passed
    obtain ⟨ordered, size, placed, counts⟩ := check_eq_ok_iff_counts.mp passed
    exact sound_iff.mpr ⟨ordered, placed.linked size, placed.mem_slotsAt_iff once counts⟩
  · intro sound
    exact sound.check once

/-- Two candidates that touch one node. The index knows it of the first only, and says of the second
that it touches another node. -/
def misindexed : Agenda where
  heap := #[⟨⟨.temporary, 0⟩, [⟨.temporary, 0⟩], .constant 1.0, .ofFloat 1.0⟩,
    ⟨⟨.temporary, 1⟩, [⟨.temporary, 0⟩], .constant 1.0, .ofFloat 1.0⟩]
  slotOf := ((∅ : ExtTreeMap EdgeId Nat).insert ⟨.temporary, 0⟩ 0).insert ⟨.temporary, 1⟩ 1
  slotsOfNode := (NodeIndex.addSlot ∅ 0 ⟨.temporary, 0⟩).addSlot 1 ⟨.temporary, 1⟩

/-- Both counts of this agenda are right, and yet the check does not pass. -/
theorem check_eq_ok_iff_misindexed : (∀ x ∈ misindexed.toList, x.nodes.Nodup) ∧
    misindexed.slotOf.size = misindexed.heap.size ∧
    misindexed.indexed.length = misindexed.touched.length ∧
    ¬misindexed.Sound ∧ misindexed.check ≠ .ok () := by
  have once : ∀ x ∈ misindexed.toList, x.nodes.Nodup := by decide
  have missing : (1 : Nat) ∉ misindexed.slotsOfNode.slotsAt ⟨.temporary, 0⟩ := by decide +kernel
  have unsound : ¬misindexed.Sound := by
    intro sound
    exact missing ((sound.touched _ 1).mpr ⟨_, rfl, List.mem_singleton_self _⟩)
  refine ⟨once, by decide +kernel, by decide +kernel, unsound, ?_⟩
  intro passed
  exact unsound ((check_eq_ok_iff once).mp passed)

/-! ### The edges of the candidates -/

/-- The candidate was added with this edge, and it has been pending ever since. -/
def AddedWith (operations : List Operation) (id : EdgeId) (edge : Edge) : Prop :=
  ∃ before score priority after, operations = before ++ .add id edge score priority :: after ∧
    id ∉ (performAll before).pending ∧
    ∀ calls, calls <+: after →
      id ∈ (performAll (before ++ .add id edge score priority :: calls)).pending

/-- A candidate that is still pending after a call is one that was added with its edge before. -/
theorem AddedWith.snoc (added : AddedWith operations id edge) {operation : Operation}
    (stays : id ∈ (performAll (operations ++ [operation])).pending) :
    AddedWith (operations ++ [operation]) id edge := by
  obtain ⟨before, score, priority, after, rfl, absent, since⟩ := added
  rw [List.append_assoc, List.cons_append] at stays ⊢
  refine ⟨before, score, priority, after ++ [operation], rfl, absent, ?_⟩
  intro calls some
  rcases List.prefix_concat_iff.mp some with rfl | earlier
  · exact stays
  · exact since calls earlier

/-- There is one edge that a pending candidate was added with. -/
theorem AddedWith.unique {edge' : Edge} (added : AddedWith operations id edge)
    (added' : AddedWith operations id edge') : edge = edge' := by
  obtain ⟨before, score, priority, after, rfl, absent, since⟩ := added
  obtain ⟨before', score', priority', after', split, absent', since'⟩ := added'
  -- The later one of two different additions would have met the candidate of the earlier one.
  rcases List.append_eq_append_iff.mp split with ⟨between, rfl, rest⟩ | ⟨between, rfl, rest⟩
  · cases between with
    | nil =>
      cases rest
      rfl
    | cons call calls =>
      cases rest
      exact absurd (since calls (List.prefix_append ..)) absent'
  · cases between with
    | nil =>
      cases rest
      rfl
    | cons call calls =>
      cases rest
      exact absurd (since' calls (List.prefix_append ..)) absent

/-- The nodes of a candidate change only when it is added. -/
theorem Contents.Step.nodes {m m' : Contents} {operation : Operation}
    {answer : Except AgendaError Answer} (step : m.Step operation answer m') {r' : Record}
    (found : m'[id]? = some r') : (∃ r, m[id]? = some r ∧ r.nodes = r'.nodes) ∨
      ∃ edge score priority, operation = .add id edge score priority ∧ m[id]? = none ∧
        r'.nodes = distinct (edge.head :: edge.tail) := by
  have erased {taken : EdgeId} (left : (m.erase taken)[id]? = some r') : m[id]? = some r' := by
    rw [ExtTreeMap.getElem?_erase] at left
    split at left
    · cases left
    · exact left
  have replaced {changed : EdgeId} {r new : Record}
      (after : (m.insert changed new)[id]? = some r') (present : m[changed]? = some r)
      (same : r.nodes = new.nodes) : ∃ r, m[id]? = some r ∧ r.nodes = r'.nodes := by
    rw [ExtTreeMap.getElem?_insert] at after
    split at after
    · rename_i here
      obtain rfl := EdgeId.compare_eq_iff.mp here
      obtain rfl := Option.some.inj after
      exact ⟨r, present, same⟩
    · exact ⟨r', after, rfl⟩
  cases step with
  | @added new edge score priority absent =>
    rw [ExtTreeMap.getElem?_insert] at found
    split at found
    · rename_i here
      obtain rfl := EdgeId.compare_eq_iff.mp here
      obtain rfl := Option.some.inj found
      exact .inr ⟨edge, score, priority, rfl, absent, rfl⟩
    · exact .inl ⟨r', found, rfl⟩
  | popped => exact .inl ⟨r', erased found, rfl⟩
  | removed => exact .inl ⟨r', erased found, rfl⟩
  | rescored present => exact .inl (replaced found present rfl)
  | updated present => exact .inl (replaced found present rfl)
  | cleared => simp at found
  | _ => exact .inl ⟨r', found, rfl⟩

/-- The nodes of a pending candidate are those of the edge that it was added with. -/
theorem added_of_contents (operations : List Operation) {r : Record}
    (found : (performAll operations).contents[id]? = some r) :
    ∃ edge, AddedWith operations id edge ∧ r.nodes = distinct (edge.head :: edge.tail) := by
  induction operations using List.reverseRecOn generalizing r with
  | nil =>
    rw [performAll, List.foldl_nil, contents_empty] at found
    simp at found
  | append_singleton operations operation ih =>
    have valid := valid_performAll operations
    have linked := (valid_performAll (operations ++ [operation])).linked
    have stays : id ∈ (performAll (operations ++ [operation])).pending := by
      by_contra absent
      rw [linked.contents_eq_none.mpr absent] at found
      cases found
    have step := valid.step operation
    rw [← performAll_append_singleton] at step
    rcases step.nodes found with ⟨r₀, before, same⟩ | ⟨edge, score, priority, rfl, absent, same⟩
    · obtain ⟨edge, added, nodes⟩ := ih before
      exact ⟨edge, added.snoc stays, same ▸ nodes⟩
    · refine ⟨edge, ⟨operations, score, priority, [], rfl, valid.linked.contents_eq_none.mp absent,
        fun calls none => ?_⟩, same⟩
      rwa [List.prefix_nil.mp none]

/-! ### After any sequence of calls -/

/-- The index leads from the pending candidates to all slots of the heap, and from no two of them to
the same. -/
theorem Linked.bijOn (linked : a.Linked) :
    Set.BijOn (fun id => a.slotOf[id]?) {id | id ∈ a.pending} (some '' Set.Iio a.size) := by
  refine ⟨?_, ?_, ?_⟩
  · intro id pending
    obtain ⟨slot, indexed⟩ := linked.mem_pending_iff.mp pending
    obtain ⟨x, at_, _⟩ := (linked id slot).mp indexed
    exact ⟨slot, (Array.getElem?_eq_some_iff.mp at_).1, indexed.symm⟩
  · intro id pending id' _ same
    obtain ⟨slot, indexed⟩ := linked.mem_pending_iff.mp pending
    obtain ⟨x, at_, rfl⟩ := (linked id slot).mp indexed
    obtain ⟨y, at', rfl⟩ := (linked id' slot).mp (same.symm.trans indexed)
    rw [at_] at at'
    rw [Option.some.inj at']
  · rintro _ ⟨slot, bound, rfl⟩
    have indexed := (linked _ slot).mpr ⟨_, Array.getElem?_eq_getElem bound, rfl⟩
    exact ⟨_, linked.mem_pending_iff.mpr ⟨slot, indexed⟩, indexed⟩

/-- The heap is in order, and both indices say what the calls have made of the agenda. -/
structure Exact (operations : List Operation) (a : Agenda) : Prop where
  /-- No entry comes below one of the two entries under it. -/
  order : ∀ slot child x y, child = 2 * slot + 1 ∨ child = 2 * slot + 2 →
    a.heap[slot]? = some x → a.heap[child]? = some y → totalRank y.priority ≤ totalRank x.priority
  indexed : ∀ id slot, a.slotOf[id]? = some slot ↔
    ∃ x : Entry, a.heap[slot]? = some x ∧ x.edge = id
  bijective : Set.BijOn (fun id => a.slotOf[id]?) {id | id ∈ a.pending} (some '' Set.Iio a.size)
  /-- Each candidate was added with one edge. -/
  added : ∀ id ∈ a.pending, ∃! edge, AddedWith operations id edge
  touched : ∀ n slot, slot ∈ a.slotsOfNode.slotsAt n ↔ ∃ (x : Entry) (edge : Edge),
    a.heap[slot]? = some x ∧ AddedWith operations x.edge edge ∧ (n = edge.head ∨ n ∈ edge.tail)
  /-- No node is kept without slots. -/
  nonempty : ∀ (n : NodeId) (slots : ExtTreeSet Nat), a.slotsOfNode[n]? = some slots → slots ≠ ∅
  check : a.check = .ok ()

/-- After any sequence of calls, of which some may have failed, the heap is in order and both
indices are exact; so the check finds nothing wrong. -/
theorem performAll_exact (operations : List Operation) :
    Exact operations (performAll operations) := by
  have valid := valid_performAll operations
  have origin : ∀ x ∈ (performAll operations).toList, ∃ edge,
      AddedWith operations x.edge edge ∧ x.nodes = distinct (edge.head :: edge.tail) := by
    intro x mem
    exact added_of_contents operations
      (valid.linked.getElem?_contents.mpr ⟨x, mem, rfl, rfl⟩)
  constructor
  · intro slot child x y below atX atY
    have up : parent child = slot := by
      unfold parent
      omega
    have rank := valid.ordered child (by omega)
    rwa [up, rankAt_of_getElem? atX, rankAt_of_getElem? atY] at rank
  · exact valid.linked
  · exact valid.linked.bijOn
  · intro id pending
    obtain ⟨x, mem, rfl⟩ := List.mem_map.mp pending
    obtain ⟨edge, added, _⟩ := origin x mem
    exact ⟨edge, added, fun edge' added' => added'.unique added⟩
  · intro n slot
    rw [valid.touching.mem_iff n slot]
    constructor
    · rintro ⟨x, at_, touches⟩
      obtain ⟨edge, added, nodes⟩ := origin x (Array.mem_toList_iff.mpr (Array.mem_of_getElem? at_))
      rw [nodes, mem_distinct, List.mem_cons] at touches
      exact ⟨x, edge, at_, added, touches⟩
    · rintro ⟨x, edge, at_, added, touches⟩
      obtain ⟨edge', added', nodes⟩ :=
        origin x (Array.mem_toList_iff.mpr (Array.mem_of_getElem? at_))
      obtain rfl := added.unique added'
      refine ⟨x, at_, ?_⟩
      rwa [nodes, mem_distinct, List.mem_cons]
  · exact valid.touching.nonempty
  · exact valid.sound.check valid.once

end ScoredChaining.Agenda
