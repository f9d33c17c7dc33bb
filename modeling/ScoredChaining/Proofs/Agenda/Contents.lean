import ScoredChaining.Proofs.Agenda.Valid

/-!
The agenda as a finite map.

* `Agenda.contents`: the nodes, the score and the priority of each pending candidate.
* `Agenda.Contents.Step`: what a call answers and makes of such a map, without a heap or an index.
* `Agenda.Valid.step`: every call does this with the contents of a valid agenda.
* `Agenda.Valid.reads`: what is read off a valid agenda is what its contents say.
* `Agenda.Valid.drain`: taking candidates off until there are none yields each of them once, none
  before one with a higher priority.
-/

namespace ScoredChaining.Agenda

open Std

variable {a a' : Agenda} {id : EdgeId} {x y : Entry}

/-- What the agenda keeps of a candidate. -/
structure Record where
  /-- The nodes that the candidate touches, each once. -/
  nodes : List NodeId
  score : Score
  priority : Double

/-- What an agenda holds. -/
abbrev Contents := ExtTreeMap EdgeId Record

/-- What an entry says of its candidate. -/
def record (x : Entry) : Record :=
  ⟨x.nodes, x.score, x.priority⟩

/-- The candidates of an agenda. -/
def contents (a : Agenda) : Contents :=
  .ofList (a.toList.map fun x => (x.edge, record x))

namespace Contents

/-- No candidate of the map comes above one with this priority. -/
def Highest (m : Contents) (priority : Double) : Prop :=
  ∀ (id : EdgeId) (r : Record), m[id]? = some r → totalRank r.priority ≤ totalRank priority

/-- What a call answers and makes of the contents. -/
inductive Step (m : Contents) : Operation → Except AgendaError Answer → Contents → Prop where
  | added {id : EdgeId} {edge : Edge} {score : Score} {priority : Double} (absent : m[id]? = none) :
      Step m (.add id edge score priority) (.ok .done)
        (m.insert id ⟨distinct (edge.head :: edge.tail), score, priority⟩)
  | duplicate {id : EdgeId} {edge : Edge} {score : Score} {priority : Double} {r : Record}
      (present : m[id]? = some r) :
      Step m (.add id edge score priority) (.error (.duplicate id)) m
  | popped {id : EdgeId} {r : Record} (present : m[id]? = some r) (highest : m.Highest r.priority) :
      Step m .pop (.ok (.taken ⟨id, r.score, r.priority⟩)) (m.erase id)
  | popEmpty (idle : m = ∅) : Step m .pop (.error .empty) m
  | removed {id : EdgeId} {r : Record} (present : m[id]? = some r) :
      Step m (.remove id) (.ok (.taken ⟨id, r.score, r.priority⟩)) (m.erase id)
  | removeEmpty {id : EdgeId} (idle : m = ∅) : Step m (.remove id) (.error .empty) m
  | removeAbsent {id : EdgeId} (busy : m ≠ ∅) (absent : m[id]? = none) :
      Step m (.remove id) (.error (.notOnAgenda id)) m
  | rescored {id : EdgeId} {score : Score} {priority : Double} {r : Record}
      (present : m[id]? = some r) :
      Step m (.rescore id score priority) (.ok (.replaced r.score))
        (m.insert id ⟨r.nodes, score, priority⟩)
  | rescoreAbsent {id : EdgeId} {score : Score} {priority : Double} (absent : m[id]? = none) :
      Step m (.rescore id score priority) (.error (.notOnAgenda id)) m
  | updated {id : EdgeId} {update : Score → Score × Double} {r : Record}
      (present : m[id]? = some r) :
      Step m (.updateScore id update) (.ok .done)
        (m.insert id ⟨r.nodes, (update r.score).1, (update r.score).2⟩)
  | updateAbsent {id : EdgeId} {update : Score → Score × Double} (absent : m[id]? = none) :
      Step m (.updateScore id update) (.error (.notOnAgenda id)) m
  | cleared : Step m .clear (.ok .done) ∅

end Contents

/-! ### Reading the contents -/

/-- A candidate has one entry. -/
theorem Linked.entry_unique (linked : a.Linked) (memX : x ∈ a.toList) (memY : y ∈ a.toList)
    (same : x.edge = y.edge) : x = y :=
  List.inj_on_of_nodup_map linked.nodup_pending memX memY same

theorem Linked.pairwise_records (linked : a.Linked) :
    (a.toList.map fun x => (x.edge, record x)).Pairwise fun p q => ¬compare p.1 q.1 = .eq := by
  simp only [EdgeId.compare_eq_iff, List.pairwise_map]
  exact List.pairwise_map.mp linked.nodup_pending

theorem Linked.getElem?_contents (linked : a.Linked) {r : Record} :
    a.contents[id]? = some r ↔ ∃ x ∈ a.toList, x.edge = id ∧ record x = r := by
  have unique := linked.pairwise_records
  have keys : (a.toList.map fun x => (x.edge, record x)).map Prod.fst = a.pending := by
    simp [pending, Function.comp_def]
  by_cases pending : id ∈ a.pending
  · obtain ⟨x, mem, rfl⟩ := List.mem_map.mp pending
    have found : a.contents[x.edge]? = some (record x) :=
      ExtTreeMap.getElem?_ofList_of_mem ReflCmp.compare_self unique (List.mem_map_of_mem mem)
    rw [found, Option.some.injEq]
    constructor
    · intro same
      exact ⟨x, mem, rfl, same⟩
    · rintro ⟨y, memY, sameEdge, same⟩
      rwa [linked.entry_unique mem memY sameEdge.symm]
  · have absent : a.contents[id]? = none := by
      apply ExtTreeMap.getElem?_ofList_of_contains_eq_false
      rw [keys]
      simpa using pending
    rw [absent]
    constructor
    · intro found
      cases found
    · rintro ⟨x, mem, rfl, _⟩
      exact absurd (List.mem_map_of_mem mem) pending

theorem Linked.contents_eq_none (linked : a.Linked) :
    a.contents[id]? = none ↔ id ∉ a.pending := by
  rw [Option.eq_none_iff_forall_ne_some, pending, List.mem_map]
  constructor
  · rintro none ⟨x, mem, same⟩
    exact none _ (linked.getElem?_contents.mpr ⟨x, mem, same, rfl⟩)
  · intro absent r found
    obtain ⟨x, mem, same, _⟩ := linked.getElem?_contents.mp found
    exact absent ⟨x, mem, same⟩

/-- The contents are the map that holds what the entries say. -/
theorem Linked.contents_eq (linked : a.Linked) {m : Contents}
    (holds : ∀ (id : EdgeId) (r : Record),
      m[id]? = some r ↔ ∃ x ∈ a.toList, x.edge = id ∧ record x = r) :
    a.contents = m := by
  apply ExtTreeMap.ext_getElem?
  intro id
  apply Option.ext
  intro r
  rw [linked.getElem?_contents, holds]

theorem contents_empty : contents empty = ∅ :=
  Linked.empty.contents_eq (by simp [toList, empty])

/-! ### What the calls make of the contents -/

theorem Linked.contents_insert (linked : a.Linked) (linked' : a'.Linked)
    (absent : x.edge ∉ a.pending) (perm : a'.toList.Perm (a.toList ++ [x])) :
    a'.contents = a.contents.insert x.edge (record x) := by
  apply linked'.contents_eq
  intro id r
  rw [ExtTreeMap.getElem?_insert]
  simp only [perm.mem_iff, List.mem_append, List.mem_singleton, or_and_right, exists_or,
    exists_eq_left]
  by_cases same : x.edge = id
  · subst same
    rw [if_pos ReflCmp.compare_self, Option.some.injEq]
    constructor
    · intro new
      exact .inr ⟨rfl, new⟩
    · rintro (⟨y, mem, sameEdge, _⟩ | ⟨_, new⟩)
      · exact absurd (List.mem_map.mpr ⟨y, mem, sameEdge⟩) absent
      · exact new
  · rw [if_neg (by rwa [EdgeId.compare_eq_iff]), linked.getElem?_contents]
    constructor
    · exact .inl
    · rintro (old | ⟨sameEdge, _⟩)
      · exact old
      · exact absurd sameEdge same

theorem Linked.contents_erase (linked : a.Linked) (linked' : a'.Linked)
    (perm : a.toList.Perm (x :: a'.toList)) : a'.contents = a.contents.erase x.edge := by
  apply linked'.contents_eq
  intro id r
  have others : x.edge ∉ a'.pending := by
    have nodup := (perm.map Entry.edge).nodup_iff.mp linked.nodup_pending
    exact (List.nodup_cons.mp nodup).1
  rw [ExtTreeMap.getElem?_erase]
  by_cases same : x.edge = id
  · subst same
    rw [if_pos ReflCmp.compare_self]
    constructor
    · intro found
      cases found
    · rintro ⟨y, mem, sameEdge, _⟩
      exact absurd (List.mem_map.mpr ⟨y, mem, sameEdge⟩) others
  · rw [if_neg (by rwa [EdgeId.compare_eq_iff]), linked.getElem?_contents]
    simp only [perm.mem_iff, List.mem_cons, or_and_right, exists_or, exists_eq_left]
    constructor
    · rintro (⟨sameEdge, _⟩ | left)
      · exact absurd sameEdge same
      · exact left
    · exact .inr

theorem record_updated (update : Score → Score × Double) (same : x.edge = id) :
    record (updated id update x) =
      ⟨x.nodes, (update x.score).1, (update x.score).2⟩ := by
  rw [updated, if_pos same, record]

theorem updated_of_ne (update : Score → Score × Double) (differ : x.edge ≠ id) :
    updated id update x = x := by
  rw [updated, if_neg differ]

theorem Linked.contents_updated (linked : a.Linked) (linked' : a'.Linked) (mem : x ∈ a.toList)
    (update : Score → Score × Double)
    (perm : a'.toList.Perm (a.toList.map (updated x.edge update))) :
    a'.contents =
      a.contents.insert x.edge ⟨x.nodes, (update x.score).1, (update x.score).2⟩ := by
  apply linked'.contents_eq
  intro id r
  rw [ExtTreeMap.getElem?_insert]
  simp only [perm.mem_iff, List.mem_map, exists_exists_and_eq_and, edge_updated]
  by_cases same : x.edge = id
  · subst same
    rw [if_pos ReflCmp.compare_self, Option.some.injEq, ← record_updated update rfl]
    constructor
    · intro new
      exact ⟨x, mem, rfl, new⟩
    · rintro ⟨y, memY, sameEdge, new⟩
      obtain rfl := linked.entry_unique memY mem sameEdge
      exact new
  · rw [if_neg (by rwa [EdgeId.compare_eq_iff]), linked.getElem?_contents]
    constructor
    · rintro ⟨y, memY, rfl, old⟩
      exact ⟨y, memY, rfl, by rwa [updated_of_ne update (Ne.symm same)]⟩
    · rintro ⟨y, memY, rfl, old⟩
      exact ⟨y, memY, rfl, by rwa [updated_of_ne update (Ne.symm same)] at old⟩

theorem Linked.contents_eq_empty (linked : a.Linked) : a.contents = ∅ ↔ a.isEmpty = true := by
  constructor
  · intro none
    apply Array.isEmpty_iff.mpr
    apply Array.eq_empty_iff_forall_not_mem.mpr
    intro x mem
    have found := linked.getElem?_contents.mpr ⟨x, Array.mem_toList_iff.mpr mem, rfl, rfl⟩
    rw [none] at found
    cases found
  · intro idle
    apply linked.contents_eq
    simp [toList_of_isEmpty idle]

/-- An entry that the first one of an agenda is above is no candidate of the contents above it. -/
theorem Valid.highest (valid : a.Valid) (first : a.heap[0]? = some x) :
    a.contents.Highest x.priority := by
  intro id r found
  obtain ⟨y, mem, rfl, rfl⟩ := valid.linked.getElem?_contents.mp found
  exact valid.ordered.root_highest first mem

namespace Valid

variable (valid : a.Valid)

include valid

theorem step_add (id : EdgeId) (edge : Edge) (score : Score) (priority : Double) :
    a.contents.Step (.add id edge score priority)
      (a.perform (.add id edge score priority)).1
      (a.perform (.add id edge score priority)).2.contents := by
  simp only [Agenda.perform]
  cases absent : a.contains id with
  | true =>
    obtain ⟨x, mem, rfl⟩ := List.mem_map.mp (valid.linked.contains_iff.mp absent)
    rw [add_of_contains absent]
    exact .duplicate (valid.linked.getElem?_contents.mpr ⟨x, mem, rfl, rfl⟩)
  | false =>
    obtain ⟨ok, linked, perm⟩ := valid.linked.add absent edge score priority
    have none : id ∉ a.pending := by
      rw [← valid.linked.contains_iff, absent]
      exact Bool.false_ne_true
    rw [ok, valid.linked.contents_insert linked none perm]
    exact .added (valid.linked.contents_eq_none.mpr none)

theorem step_pop : a.contents.Step .pop (a.perform .pop).1 (a.perform .pop).2.contents := by
  simp only [Agenda.perform]
  cases busy : a.isEmpty with
  | true =>
    rw [pop_of_isEmpty busy]
    exact .popEmpty (valid.linked.contents_eq_empty.mpr busy)
  | false =>
    obtain ⟨x, first, ok, linked, perm⟩ := valid.linked.pop busy
    rw [ok, valid.linked.contents_erase linked perm]
    have found := valid.linked.getElem?_contents.mpr
      ⟨x, perm.mem_iff.mpr List.mem_cons_self, rfl, rfl⟩
    exact .popped found (valid.highest first)

theorem step_remove (id : EdgeId) :
    a.contents.Step (.remove id) (a.perform (.remove id)).1
      (a.perform (.remove id)).2.contents := by
  simp only [Agenda.perform]
  cases busy : a.isEmpty with
  | true =>
    rw [remove_of_isEmpty busy]
    exact .removeEmpty (valid.linked.contents_eq_empty.mpr busy)
  | false =>
    by_cases pending : id ∈ a.pending
    · obtain ⟨x, rfl, ok, linked, perm⟩ := valid.linked.remove pending
      rw [ok, valid.linked.contents_erase linked perm]
      exact .removed (valid.linked.getElem?_contents.mpr
        ⟨x, perm.mem_iff.mpr List.mem_cons_self, rfl, rfl⟩)
    · rw [valid.linked.remove_of_not_mem busy pending]
      apply Contents.Step.removeAbsent
      · rw [Ne, valid.linked.contents_eq_empty, busy]
        exact Bool.false_ne_true
      · exact valid.linked.contents_eq_none.mpr pending

/-- What an update answers and makes of the contents. -/
theorem updateScore_spec (id : EdgeId) (update : Score → Score × Double) :
    (∃ r, a.contents[id]? = some r ∧ (a.updateScore id update).1 = .ok r.score ∧
      (a.updateScore id update).2.contents =
        a.contents.insert id ⟨r.nodes, (update r.score).1, (update r.score).2⟩) ∨
    (a.contents[id]? = none ∧ a.updateScore id update = (.error (.notOnAgenda id), a)) := by
  by_cases pending : id ∈ a.pending
  · obtain ⟨x, mem, rfl, ok, linked, perm⟩ := valid.linked.updateScore pending update
    exact .inl ⟨record x, valid.linked.getElem?_contents.mpr ⟨x, mem, rfl, rfl⟩, ok,
      valid.linked.contents_updated linked mem update perm⟩
  · exact .inr ⟨valid.linked.contents_eq_none.mpr pending,
      valid.linked.updateScore_of_not_mem pending update⟩

/-- A call answers what the map says and does with it what it should. -/
theorem step (operation : Operation) :
    a.contents.Step operation (a.perform operation).1 (a.perform operation).2.contents := by
  cases operation with
  | add id edge score priority => exact valid.step_add id edge score priority
  | pop => exact valid.step_pop
  | remove id => exact valid.step_remove id
  | rescore id score priority =>
    simp only [Agenda.perform, rescore]
    rcases valid.updateScore_spec id fun _ => (score, priority) with
      ⟨r, found, ok, same⟩ | ⟨none, same⟩
    · rw [ok, same]
      exact .rescored found
    · rw [same]
      exact .rescoreAbsent none
  | updateScore id update =>
    simp only [Agenda.perform]
    rcases valid.updateScore_spec id update with ⟨r, found, ok, same⟩ | ⟨none, same⟩
    · rw [ok, same]
      exact .updated found
    · rw [same]
      exact .updateAbsent none
  | clear =>
    simp only [Agenda.perform, clear, contents_empty]
    exact .cleared

end Valid

/-! ### What is read off an agenda -/

/-- What is read off the agenda is what the map says. -/
structure Reads (a : Agenda) (m : Contents) : Prop where
  contains : ∀ id, a.contains id = m.contains id
  size : a.size = m.size
  isEmpty : a.isEmpty = true ↔ m = ∅
  entry : ∀ id, (a.entry? id).map record = m[id]?
  peek : (m = ∅ ∧ a.peek = .error .empty) ∨ ∃ (id : EdgeId) (r : Record),
    m[id]? = some r ∧ m.Highest r.priority ∧ a.peek = .ok ⟨id, r.score, r.priority⟩
  adjacent : ∀ n id, id ∈ a.adjacent n ↔ ∃ r : Record, m[id]? = some r ∧ n ∈ r.nodes
  /-- The candidates that touch a node are listed once and in ascending order. -/
  ascending : ∀ n, (a.adjacent n).Pairwise fun d e => compare d e = .lt

/-- A list that has no repetitions rises strictly when it is in ascending order. -/
theorem pairwise_ascending {α : Type} [Ord α] [TransOrd α] {l : List α}
    (differ : (ScoredChaining.ascending l).Pairwise fun d e => compare d e ≠ .eq) :
    (ScoredChaining.ascending l).Pairwise fun d e => compare d e = .lt := by
  have sorted : (ScoredChaining.ascending l).Pairwise fun d e => (compare d e).isLE = true := by
    apply List.pairwise_mergeSort
    · intro c d e
      exact TransCmp.isLE_trans
    · intro d e
      have swapped : compare e d = (compare d e).swap := OrientedCmp.eq_swap
      rw [swapped]
      cases compare d e <;> rfl
  refine (sorted.and differ).imp fun ⟨le, ne⟩ => ?_
  grind [Ordering.isLE_iff_eq_lt_or_eq_eq]

theorem Linked.entry?_eq_some (linked : a.Linked) :
    a.entry? id = some x ↔ x ∈ a.toList ∧ x.edge = id := by
  rw [Agenda.entry?, Option.bind_eq_some_iff, toList, Array.mem_toList_iff, Array.mem_iff_getElem?]
  constructor
  · rintro ⟨slot, indexed, at_⟩
    obtain ⟨y, at', same⟩ := (linked id slot).mp indexed
    rw [at_] at at'
    obtain rfl := Option.some.inj at'
    exact ⟨⟨slot, at_⟩, same⟩
  · rintro ⟨⟨slot, at_⟩, same⟩
    exact ⟨slot, (linked id slot).mpr ⟨x, at_, same⟩, at_⟩

/-- What is in front is what is taken off next. -/
theorem peek_eq_pop (a : Agenda) : a.peek = a.pop.1 := by
  unfold peek pop
  cases a.heap[0]? <;> rfl

/-- Where the index leads from a node to the slots whose entries touch it, the candidates that touch
the node are those whose entries do. -/
theorem mem_adjacent_of_touches {n : NodeId}
    (slots : ∀ n slot, slot ∈ a.slotsOfNode.slotsAt n ↔ a.Touches n slot) :
    id ∈ a.adjacent n ↔ ∃ x ∈ a.toList, x.edge = id ∧ n ∈ x.nodes := by
  have slots := slots n
  unfold NodeIndex.slotsAt at slots
  unfold adjacent
  cases found : a.slotsOfNode[n]? with
  | none =>
    simp only [List.not_mem_nil, false_iff]
    rintro ⟨x, mem, _, touches⟩
    obtain ⟨slot, at_⟩ := Array.mem_iff_getElem?.mp (Array.mem_toList_iff.mp mem)
    have indexed := (slots slot).mpr ⟨x, at_, touches⟩
    rw [found] at indexed
    exact ExtTreeSet.not_mem_empty indexed
  | some known =>
    rw [found, Option.getD_some] at slots
    simp only [mem_ascending, List.mem_filterMap, ExtTreeSet.mem_toList, Option.map_eq_some_iff,
      slots]
    constructor
    · rintro ⟨slot, ⟨x, at_, touches⟩, y, at', rfl⟩
      rw [at_] at at'
      obtain rfl := Option.some.inj at'
      exact ⟨x, Array.mem_toList_iff.mpr (Array.mem_of_getElem? at_), rfl, touches⟩
    · rintro ⟨x, mem, rfl, touches⟩
      obtain ⟨slot, at_⟩ := Array.mem_iff_getElem?.mp (Array.mem_toList_iff.mp mem)
      exact ⟨slot, ⟨x, at_, touches⟩, x, at_, rfl⟩

theorem Touching.mem_adjacent (touching : a.Touching) {n : NodeId} :
    id ∈ a.adjacent n ↔ ∃ x ∈ a.toList, x.edge = id ∧ n ∈ x.nodes :=
  mem_adjacent_of_touches touching.mem_iff

theorem Valid.reads (valid : a.Valid) : a.Reads a.contents where
  contains id := by
    rw [Bool.eq_iff_iff, valid.linked.contains_iff, ExtTreeMap.contains_eq_isSome_getElem?,
      ← Decidable.not_iff_not, ← valid.linked.contents_eq_none, Option.isSome_iff_ne_none, not_not]
  size := by
    rw [contents, ExtTreeMap.size_ofList valid.linked.pairwise_records, List.length_map, toList,
      Array.length_toList, Agenda.size]
  isEmpty := valid.linked.contents_eq_empty.symm
  entry id := by
    apply Option.ext
    intro r
    simp only [Option.map_eq_some_iff, valid.linked.entry?_eq_some, valid.linked.getElem?_contents,
      and_assoc]
  peek := by
    rw [peek_eq_pop]
    cases busy : a.isEmpty with
    | true => exact .inl ⟨valid.linked.contents_eq_empty.mpr busy, by rw [pop_of_isEmpty busy]⟩
    | false =>
      obtain ⟨x, first, ok, linked, perm⟩ := valid.linked.pop busy
      have found := valid.linked.getElem?_contents.mpr
        ⟨x, perm.mem_iff.mpr List.mem_cons_self, rfl, rfl⟩
      exact .inr ⟨x.edge, record x, found, valid.highest first, ok⟩
  adjacent n id := by
    rw [valid.touching.mem_adjacent]
    simp only [valid.linked.getElem?_contents]
    constructor
    · rintro ⟨x, mem, same, touches⟩
      exact ⟨record x, ⟨x, mem, same, rfl⟩, touches⟩
    · rintro ⟨_, ⟨x, mem, same, rfl⟩, touches⟩
      exact ⟨x, mem, same, touches⟩
  ascending n := by
    have nodup := (valid.linked.adjacent n).1
    unfold adjacent at nodup ⊢
    split at nodup
    · exact .nil
    · apply pairwise_ascending
      simp only [Ne, EdgeId.compare_eq_iff]
      exact nodup

/-! ### Taking all candidates off -/

theorem size_keptBySwaps (n : Nat) : KeptBySwaps fun a => a.heap.size = n := by
  intro a i j _ _ size
  rw [heap_swap, Array.size_swapIfInBounds, size]

theorem size_pop {c : Candidate} (taken : a.pop.1 = .ok c) : a.pop.2.heap.size < a.heap.size := by
  unfold pop at taken ⊢
  cases first : a.heap[0]? with
  | none => simp [first] at taken
  | some x =>
    have bound := (Array.getElem?_eq_some_iff.mp first).1
    have less := size_takeOff a 0
    simp only
    split
    · omega
    · rw [(size_keptBySwaps _).siftDown 0 less]
      omega

/-- The candidates in the order in which they are taken off, until there are none. -/
def drain (a : Agenda) : List Candidate :=
  match _h : a.pop.1 with
  | .ok c => c :: a.pop.2.drain
  | .error _ => []
termination_by a.heap.size
decreasing_by exact size_pop _h

theorem drain_of_taken {c : Candidate} (taken : a.pop.1 = .ok c) :
    a.drain = c :: a.pop.2.drain := by
  rw [drain]
  split
  · rename_i d taken'
    rw [taken] at taken'
    rw [Except.ok.inj taken']
  · rename_i failed
    rw [taken] at failed
    cases failed

theorem drain_of_failed {error : AgendaError} (failed : a.pop.1 = .error error) : a.drain = [] := by
  rw [drain]
  split
  · rename_i taken
    rw [failed] at taken
    cases taken
  · rfl

/-- Taking candidates off yields every one of them, as it was stored, and none before one with a
higher priority. -/
theorem Valid.drain_spec (valid : a.Valid) : a.drain.Perm (a.toList.map candidate) ∧
    a.drain.Pairwise fun c d => totalRank d.priority ≤ totalRank c.priority := by
  induction a using Agenda.drain.induct with
  | case1 a c taken ih =>
    rw [drain_of_taken taken]
    cases busy : a.isEmpty with
    | true =>
      rw [pop_of_isEmpty busy] at taken
      cases taken
    | false =>
      obtain ⟨x, first, ok, _, perm⟩ := valid.linked.pop busy
      obtain ⟨rest, sorted⟩ := ih valid.pop
      rw [ok] at taken
      obtain rfl := Except.ok.inj taken
      constructor
      · exact (rest.cons _).trans (perm.map candidate).symm
      · refine List.pairwise_cons.mpr ⟨?_, sorted⟩
        intro d mem
        obtain ⟨y, left, rfl⟩ := List.mem_map.mp (rest.mem_iff.mp mem)
        exact valid.ordered.root_highest first (perm.mem_iff.mpr (List.mem_cons_of_mem x left))
  | case2 a error failed =>
    rw [drain_of_failed failed]
    cases busy : a.isEmpty with
    | true => simp [toList_of_isEmpty busy]
    | false =>
      obtain ⟨x, _, ok, _⟩ := valid.linked.pop busy
      rw [ok] at failed
      cases failed

/-- The list has each candidate of the map once, as it was stored, and none before one with a higher
priority. -/
structure Drains (m : Contents) (taken : List Candidate) : Prop where
  mem_iff : ∀ c, c ∈ taken ↔ ∃ nodes, m[c.edge]? = some ⟨nodes, c.score, c.priority⟩
  once : (taken.map Candidate.edge).Nodup
  sorted : taken.Pairwise fun c d => totalRank d.priority ≤ totalRank c.priority

theorem Valid.drains (valid : a.Valid) : Drains a.contents a.drain := by
  obtain ⟨perm, sorted⟩ := valid.drain_spec
  constructor
  · rintro ⟨id, score, priority⟩
    simp only [perm.mem_iff, List.mem_map, valid.linked.getElem?_contents]
    constructor
    · rintro ⟨x, mem, same⟩
      cases same
      exact ⟨x.nodes, x, mem, rfl, rfl⟩
    · rintro ⟨nodes, x, mem, rfl, stored⟩
      cases stored
      exact ⟨x, mem, rfl⟩
  · apply (perm.map Candidate.edge).nodup_iff.mpr
    rw [List.map_map]
    exact valid.linked.nodup_pending
  · exact sorted

/-! ### Sequences of calls -/

/-- Calls with their answers, as they can be made on a map one after the other. -/
inductive Contents.Run : Contents → List (Operation × Except AgendaError Answer) → Contents → Prop
  where
  | done {m : Contents} : Run m [] m
  | call {m m' m'' : Contents} {operation : Operation} {answer : Except AgendaError Answer}
      {rest : List (Operation × Except AgendaError Answer)} (step : m.Step operation answer m')
      (run : Run m' rest m'') : Run m ((operation, answer) :: rest) m''

/-- The calls with what they answer when they are made in order. -/
def answers (a : Agenda) : List Operation → List (Operation × Except AgendaError Answer)
  | [] => []
  | operation :: rest =>
    (operation, (a.perform operation).1) :: (a.perform operation).2.answers rest

theorem Valid.run (valid : a.Valid) (operations : List Operation) :
    a.contents.Run (a.answers operations)
      (operations.foldl (fun a operation => (a.perform operation).2) a).contents := by
  induction operations generalizing a with
  | nil => exact .done
  | cons operation rest ih => exact .call (valid.step operation) (ih (valid.perform operation))

/-- The agenda is a finite map with a priority queue's operations. The calls of any sequence answer
what the map would and leave its contents behind, and one that fails leaves the agenda as it is.
After the calls, what is read off the agenda is what the map says, and taking candidates off until
there are none yields each of them once, none before one with a higher priority. -/
theorem performAll_refines (operations : List Operation) :
    Contents.Run ∅ (empty.answers operations) (performAll operations).contents ∧
      (∀ operation error, ((performAll operations).perform operation).1 = .error error →
        ((performAll operations).perform operation).2 = performAll operations) ∧
      (performAll operations).Reads (performAll operations).contents ∧
      Drains (performAll operations).contents (performAll operations).drain := by
  have valid := valid_performAll operations
  refine ⟨?_, fun _ _ => perform_of_failed, valid.reads, valid.drains⟩
  have run := Valid.empty.run operations
  rwa [contents_empty] at run

/-- A not-a-number with its sign bit set is taken off after minus infinity. -/
example :
    let edge : Edge := ⟨⟨0⟩, ⟨.temporary, 0⟩, []⟩
    let a := performAll [.add ⟨.temporary, 0⟩ edge (.constant 0.0) ⟨0xfff8000000000000⟩,
      .add ⟨.temporary, 1⟩ edge (.constant 0.0) (.infinity true)]
    a.drain.map Candidate.edge = [⟨.temporary, 1⟩, ⟨.temporary, 0⟩] := by
  decide +kernel

end ScoredChaining.Agenda
