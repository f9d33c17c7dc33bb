import Mathlib.Data.List.Induction
import ScoredChaining.Proofs.Agenda.NodeSlots
import ScoredChaining.Proofs.Agenda.Order

/-!
Sequences of agenda operations, and what each of them keeps.

* `Agenda.Operation`, `Agenda.perform`: the calls that change an agenda, and what a call answers and
  leaves behind. `Agenda.performAll` makes a sequence of calls on an empty agenda.
* `Agenda.perform_of_failed`: a call that fails leaves the agenda as it is.
* `Agenda.Valid`: the heap order and both indices are right. `Agenda.Valid.perform`: every call keeps
  this, and so it holds after any sequence of calls (`Agenda.valid_performAll`).
-/

namespace ScoredChaining.Agenda

variable {a a' : Agenda} {id : EdgeId} {x : Entry}

/-- A call that changes an agenda. -/
inductive Operation where
  | add (id : EdgeId) (edge : Edge) (score : Score) (priority : Double)
  | pop
  | remove (id : EdgeId)
  | rescore (id : EdgeId) (score : Score) (priority : Double)
  | updateScore (id : EdgeId) (update : Score → Score × Double)
  | clear

/-- What a call that succeeds answers. -/
inductive Answer where
  | done
  /-- The candidate that was taken off. -/
  | taken (candidate : Candidate)
  /-- The score before the call. -/
  | replaced (old : Score)

/-- Makes a call: its answer, and the agenda after it. -/
def perform (a : Agenda) : Operation → Except AgendaError Answer × Agenda
  | .add id edge score priority =>
    ((a.add id edge score priority).1.map fun _ => .done, (a.add id edge score priority).2)
  | .pop => (a.pop.1.map .taken, a.pop.2)
  | .remove id => ((a.remove id).1.map .taken, (a.remove id).2)
  | .rescore id score priority =>
    ((a.rescore id score priority).1.map .replaced, (a.rescore id score priority).2)
  | .updateScore id update =>
    ((a.updateScore id update).1.map fun _ => .done, (a.updateScore id update).2)
  | .clear => (.ok .done, a.clear)

/-- Makes the calls in order on an empty agenda. -/
def performAll (operations : List Operation) : Agenda :=
  operations.foldl (fun a operation => (a.perform operation).2) empty

theorem performAll_append_singleton (operations : List Operation) (operation : Operation) :
    performAll (operations ++ [operation]) = ((performAll operations).perform operation).2 := by
  simp [performAll]

/-- What an empty agenda has and every call keeps holds after any sequence of calls. -/
theorem performAll_induction {P : Agenda → Prop} (empty : P Agenda.empty)
    (kept : ∀ a operation, P a → P (a.perform operation).2) (operations : List Operation) :
    P (performAll operations) := by
  induction operations using List.reverseRecOn with
  | nil => exact empty
  | append_singleton operations operation ih =>
    rw [performAll_append_singleton]
    exact kept _ operation ih

/-! ### Calls that fail -/

theorem add_of_contains (present : a.contains id = true) (edge : Edge) (score : Score)
    (priority : Double) : a.add id edge score priority = (.error (.duplicate id), a) := by
  rw [add, if_pos present]

theorem pop_of_isEmpty (idle : a.isEmpty = true) : a.pop = (.error .empty, a) := by
  have none : a.heap[0]? = none := by rw [Array.isEmpty_iff.mp idle]; rfl
  rw [pop, none]

theorem remove_of_isEmpty (idle : a.isEmpty = true) : a.remove id = (.error .empty, a) := by
  rw [remove, if_pos idle]

theorem Linked.slotOf_of_not_mem (linked : a.Linked) (absent : id ∉ a.pending) :
    a.slotOf[id]? = none := by
  rw [linked.mem_pending_iff, not_exists] at absent
  exact Option.eq_none_iff_forall_ne_some.mpr absent

theorem Linked.remove_of_not_mem (linked : a.Linked) (busy : a.isEmpty = false)
    (absent : id ∉ a.pending) : a.remove id = (.error (.notOnAgenda id), a) := by
  simp only [Agenda.remove, busy, Bool.false_eq_true, if_false, linked.slotOf_of_not_mem absent]

theorem Linked.updateScore_of_not_mem (linked : a.Linked) (absent : id ∉ a.pending)
    (update : Score → Score × Double) :
    a.updateScore id update = (.error (.notOnAgenda id), a) := by
  simp only [Agenda.updateScore, linked.slotOf_of_not_mem absent]

theorem updateScore_of_failed {update : Score → Score × Double} {error : AgendaError}
    (failed : (a.updateScore id update).1 = .error error) : (a.updateScore id update).2 = a := by
  unfold updateScore at failed ⊢
  cases indexed : a.slotOf[id]? with
  | none => rfl
  | some slot =>
    rw [indexed] at failed
    cases at_ : a.heap[slot]? with
    | none => simp only [at_]
    | some x => simp [at_] at failed

/-- A call that fails leaves the agenda as it is. -/
theorem perform_of_failed {operation : Operation} {error : AgendaError}
    (failed : (a.perform operation).1 = .error error) : (a.perform operation).2 = a := by
  -- The answer of a call fails just when the method that it stands for does.
  have fails {α : Type} {answer : Except AgendaError α} {f : α → Answer}
      (mapped : answer.map f = .error error) : answer = .error error := by
    cases answer with
    | error _ => exact congrArg _ (Except.error.inj mapped)
    | ok _ => cases mapped
  cases operation with
  | add id edge score priority =>
    have failed := fails failed
    simp only [perform]
    by_cases present : a.contains id = true
    · rw [add_of_contains present]
    · simp [add, present] at failed
  | pop =>
    have failed := fails failed
    simp only [perform]
    cases busy : a.isEmpty with
    | true => rw [pop_of_isEmpty busy]
    | false =>
      have bound := Array.size_pos_iff.mpr (Array.isEmpty_eq_false_iff.mp busy)
      simp [pop, Array.getElem?_eq_getElem bound] at failed
  | remove id =>
    have failed := fails failed
    simp only [perform]
    unfold remove at failed ⊢
    cases busy : a.isEmpty with
    | true => rfl
    | false =>
      cases indexed : a.slotOf[id]? with
      | none => rfl
      | some slot =>
        cases at_ : a.heap[slot]? with
        | none => simp only [at_, Bool.false_eq_true, if_false]
        | some x => simp [at_, busy, indexed] at failed
  | rescore id score priority => exact updateScore_of_failed (fails failed)
  | updateScore id update => exact updateScore_of_failed (fails failed)
  | clear => cases failed

/-! ### Entries after a call that may have failed -/

namespace Linked

variable (linked : a.Linked)

include linked

theorem entries_add (id : EdgeId) (edge : Edge) (score : Score) (priority : Double) :
    (a.add id edge score priority).2.Linked ∧ ∀ x ∈ (a.add id edge score priority).2.toList,
      x ∈ a.toList ∨ x = ⟨id, distinct (edge.head :: edge.tail), score, priority⟩ := by
  cases absent : a.contains id with
  | true =>
    rw [add_of_contains absent]
    exact ⟨linked, fun x old => .inl old⟩
  | false =>
    obtain ⟨_, linked', perm⟩ := linked.add absent edge score priority
    refine ⟨linked', ?_⟩
    intro x mem
    exact (List.mem_append.mp (perm.mem_iff.mp mem)).imp_right List.mem_singleton.mp

theorem entries_pop : a.pop.2.Linked ∧ ∀ x ∈ a.pop.2.toList, x ∈ a.toList := by
  cases busy : a.isEmpty with
  | true =>
    rw [pop_of_isEmpty busy]
    exact ⟨linked, fun x old => old⟩
  | false =>
    obtain ⟨x, _, _, linked', perm⟩ := linked.pop busy
    exact ⟨linked', fun y mem => perm.mem_iff.mpr (List.mem_cons_of_mem x mem)⟩

theorem entries_remove (id : EdgeId) :
    (a.remove id).2.Linked ∧ ∀ x ∈ (a.remove id).2.toList, x ∈ a.toList := by
  cases busy : a.isEmpty with
  | true =>
    rw [remove_of_isEmpty busy]
    exact ⟨linked, fun x old => old⟩
  | false =>
    by_cases present : id ∈ a.pending
    · obtain ⟨x, _, _, linked', perm⟩ := linked.remove present
      exact ⟨linked', fun y mem => perm.mem_iff.mpr (List.mem_cons_of_mem x mem)⟩
    · rw [linked.remove_of_not_mem busy present]
      exact ⟨linked, fun x old => old⟩

theorem entries_updateScore (id : EdgeId) (update : Score → Score × Double) :
    (a.updateScore id update).2.Linked ∧ ∀ x ∈ (a.updateScore id update).2.toList,
      ∃ y ∈ a.toList, x = updated id update y := by
  by_cases present : id ∈ a.pending
  · obtain ⟨_, _, _, _, linked', perm⟩ := linked.updateScore present update
    refine ⟨linked', ?_⟩
    intro x mem
    obtain ⟨y, old, same⟩ := List.mem_map.mp (perm.mem_iff.mp mem)
    exact ⟨y, old, same.symm⟩
  · rw [linked.updateScore_of_not_mem present]
    refine ⟨linked, fun x old => ⟨x, old, ?_⟩⟩
    have differ : x.edge ≠ id := fun same => present (List.mem_map.mpr ⟨x, old, same⟩)
    rw [updated, if_neg differ]

end Linked

/-! ### The invariant -/

/-- The heap is in order, both indices are exact, and no entry lists a node twice. -/
structure Valid (a : Agenda) : Prop where
  ordered : a.Ordered
  linked : a.Linked
  touching : a.Touching
  once : ∀ x ∈ a.toList, x.nodes.Nodup

namespace Valid

theorem empty : Valid Agenda.empty where
  ordered := .empty
  linked := .empty
  touching := .empty
  once := by simp [toList, Agenda.empty]

theorem add (valid : a.Valid) (id : EdgeId) (edge : Edge) (score : Score) (priority : Double) :
    (a.add id edge score priority).2.Valid := by
  obtain ⟨linked, entries⟩ := valid.linked.entries_add id edge score priority
  constructor
  · exact valid.ordered.add id edge score priority
  · exact linked
  · exact valid.touching.add id edge score priority
  · intro x mem
    rcases entries x mem with old | rfl
    · exact valid.once x old
    · exact nodup_distinct _

theorem pop (valid : a.Valid) : a.pop.2.Valid := by
  obtain ⟨linked, entries⟩ := valid.linked.entries_pop
  constructor
  · exact valid.ordered.pop
  · exact linked
  · exact valid.touching.pop
  · intro x mem
    exact valid.once x (entries x mem)

theorem remove (valid : a.Valid) (id : EdgeId) : (a.remove id).2.Valid := by
  obtain ⟨linked, entries⟩ := valid.linked.entries_remove id
  constructor
  · exact valid.ordered.remove id
  · exact linked
  · exact valid.touching.remove id
  · intro x mem
    exact valid.once x (entries x mem)

theorem updateScore (valid : a.Valid) (id : EdgeId) (update : Score → Score × Double) :
    (a.updateScore id update).2.Valid := by
  obtain ⟨linked, entries⟩ := valid.linked.entries_updateScore id update
  constructor
  · exact valid.ordered.updateScore id update
  · exact linked
  · exact valid.touching.updateScore id update
  · intro x mem
    obtain ⟨y, old, rfl⟩ := entries x mem
    rw [nodes_updated]
    exact valid.once y old

/-- The candidate that is taken off comes below no pending one. -/
theorem pop_highest (valid : a.Valid) (busy : a.isEmpty = false) :
    ∃ x ∈ a.toList, a.pop.1 = .ok (candidate x) ∧
      ∀ y ∈ a.toList, totalRank y.priority ≤ totalRank x.priority := by
  obtain ⟨x, first, ok, _, perm⟩ := valid.linked.pop busy
  refine ⟨x, perm.mem_iff.mpr List.mem_cons_self, ok, ?_⟩
  intro y mem
  exact valid.ordered.root_highest first mem

/-- Every call, whether it succeeds or fails, keeps the heap order and both indices. -/
theorem perform (valid : a.Valid) (operation : Operation) : (a.perform operation).2.Valid := by
  cases operation with
  | add id edge score priority => exact valid.add id edge score priority
  | pop => exact valid.pop
  | remove id => exact valid.remove id
  | rescore id score priority => exact valid.updateScore id _
  | updateScore id update => exact valid.updateScore id update
  | clear => exact .empty

end Valid

theorem valid_performAll (operations : List Operation) : (performAll operations).Valid :=
  performAll_induction .empty (fun _ operation valid => valid.perform operation) operations

end ScoredChaining.Agenda
