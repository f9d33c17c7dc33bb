import ScoredChaining.Factor
import ScoredChaining.Proofs.Agenda.Slots

/-!
Factors never fail: they only touch candidates that the agenda lists as pending
(`Factor.rescore_spec`). Only exclusions take any of them off (`Factor.perm_pending_rescore`).

* `Factor.removeRivals_spec`, `Factor.penalize_spec`: the entries that are left when candidates are
  removed or their scores are changed one after the other, on a heap that moves entries each time.
* `Factor.removeRivals_keeps`, `Factor.penalize_keeps`: what one removal or one change keeps, all of
  them keep.
-/

namespace ScoredChaining.Factor

variable {a : Agenda} {ids : List EdgeId}

/-- What applying a factor to an agenda guarantees. -/
structure Applied (a : Agenda) (answer : Except AgendaError Unit × Agenda) : Prop where
  ok : answer.1 = .ok ()
  linked : answer.2.Linked
  subset : ∀ id ∈ answer.2.pending, id ∈ a.pending

theorem Applied.refl (linked : a.Linked) : Applied a (.ok (), a) :=
  ⟨rfl, linked, fun _ mem => mem⟩

/-! ### Keys -/

section Keys

variable {fact e : Edge} {keyArgs : List Nat} {keyed : List (Nat × NodeId)} {relation : RelationId}

theorem keyed?_eq_none_iff : keyed? keyArgs fact = none ↔ ∃ k ∈ keyArgs, fact.tail[k]? = none := by
  induction keyArgs with
  | nil => simp [keyed?]
  | cons k rest ih =>
    simp only [List.mem_cons, exists_eq_or_imp, ← ih]
    cases at_ : fact.tail[k]? with
    | none => simp [keyed?, List.mapM_cons, at_]
    | some n => cases found : keyed? rest fact <;> simp_all [keyed?, List.mapM_cons]

/-- The nodes of a fact at argument positions that it has. -/
theorem of_keyed?_eq_some (found : keyed? keyArgs fact = some keyed) :
    keyed.map Prod.fst = keyArgs ∧ ∀ x ∈ keyed, fact.tail[x.1]? = some x.2 := by
  induction keyArgs generalizing keyed with
  | nil =>
    obtain rfl : [] = keyed := by simpa [keyed?] using found
    simp
  | cons k rest ih =>
    rw [keyed?, List.mapM_cons] at found
    simp only [Option.bind_eq_bind, Option.bind_eq_some_iff, Option.map_eq_some_iff,
      Option.pure_def, Option.some.injEq] at found
    obtain ⟨_, ⟨n, at_, rfl⟩, others, foundRest, rfl⟩ := found
    obtain ⟨names, nodes⟩ := ih foundRest
    exact ⟨by rw [List.map_cons, names], List.forall_mem_cons.mpr ⟨at_, nodes⟩⟩

/-- Agreeing with the nodes of a fact is being of the relation and having the same node as the fact
at every position. -/
theorem agrees_iff (found : keyed? keyArgs fact = some keyed) : agrees relation keyed e = true ↔
    e.relation = relation ∧ ∀ k ∈ keyArgs, e.tail[k]? = fact.tail[k]? := by
  obtain ⟨rfl, nodes⟩ := of_keyed?_eq_some found
  rw [agrees, Bool.and_eq_true, beq_iff_eq, List.all_eq_true, List.forall_mem_map]
  refine and_congr_right fun _ => forall₂_congr fun x mem => ?_
  rw [nodes x mem, beq_iff_eq]

end Keys

/-! ### Effects -/

/-- The candidate is a live fact of the relation that has the nodes at the argument positions. -/
def isRival (relation : RelationId) (keyed : List (Nat × NodeId)) (g : Graph) (id : EdgeId) :
    Bool :=
  match g.edge id with
  | .ok e => agrees relation keyed e
  | .error _ => false

theorem isRival_eq_true_iff {relation : RelationId} {keyed : List (Nat × NodeId)} {g : Graph}
    {id : EdgeId} : isRival relation keyed g id = true ↔
      ∃ e, g.edge id = .ok e ∧ agrees relation keyed e = true := by
  unfold isRival
  cases g.edge id <;> simp

/-- The first candidate is removed if it agrees. -/
theorem removeRivals_cons (relation : RelationId) (keyed : List (Nat × NodeId)) (g : Graph)
    (id : EdgeId) (rest : List EdgeId) (a : Agenda) :
    removeRivals relation keyed g (id :: rest) a =
      if isRival relation keyed g id then
        match a.remove id with
        | (.error failure, a) => (.error failure, a)
        | (.ok _, a) => removeRivals relation keyed g rest a
      else removeRivals relation keyed g rest a := by
  rw [removeRivals, isRival]
  cases g.edge id <;> rfl

/-- Removing candidates that are pending, each of them once, succeeds. It takes off those of them
that agree, and leaves the entries of all others as they are. -/
theorem removeRivals_spec (relation : RelationId) (keyed : List (Nat × NodeId)) (g : Graph)
    (linked : a.Linked) (nodup : ids.Nodup) (pending : ∀ id ∈ ids, id ∈ a.pending) :
    (removeRivals relation keyed g ids a).1 = .ok () ∧
      (removeRivals relation keyed g ids a).2.Linked ∧
      (removeRivals relation keyed g ids a).2.toList.Perm
        (a.toList.filter fun x => !(ids.contains x.edge && isRival relation keyed g x.edge)) := by
  induction ids generalizing a with
  | nil => exact ⟨rfl, linked, .of_eq (by simp [removeRivals])⟩
  | cons id rest ih =>
    obtain ⟨fresh, nodupRest⟩ := List.nodup_cons.mp nodup
    obtain ⟨here, pendingRest⟩ := List.forall_mem_cons.mp pending
    rw [removeRivals_cons]
    cases rival : isRival relation keyed g id with
    | false =>
      obtain ⟨ok, linkedEnd, perm⟩ := ih linked nodupRest pendingRest
      refine ⟨ok, linkedEnd, perm.trans (.of_eq (List.filter_congr fun x _ => ?_))⟩
      by_cases same : x.edge = id <;> simp [same, rival]
    | true =>
      obtain ⟨x, _, removed, linked', _⟩ := linked.remove here
      have left := linked.perm_remove here
      generalize a.remove id = answer at removed linked' left
      obtain ⟨result, a'⟩ := answer
      obtain rfl : result = .ok (Agenda.candidate x) := removed
      have stillPending : ∀ other ∈ rest, other ∈ a'.pending := by
        intro other mem
        obtain ⟨y, memY, rfl⟩ := List.mem_map.mp (pendingRest other mem)
        have differ : y.edge ≠ id := fun same => fresh (same ▸ mem)
        exact List.mem_map_of_mem (left.mem_iff.mpr (List.mem_filter.mpr ⟨memY, by simpa⟩))
      obtain ⟨ok, linkedEnd, perm⟩ := ih linked' nodupRest stillPending
      refine ⟨ok, linkedEnd, perm.trans ((left.filter _).trans (.of_eq ?_))⟩
      rw [List.filter_filter]
      refine List.filter_congr fun y _ => ?_
      by_cases same : y.edge = id <;> simp [same, rival]

theorem applied_removeRivals (relation : RelationId) (keyed : List (Nat × NodeId)) (g : Graph)
    (linked : a.Linked) (nodup : ids.Nodup) (pending : ∀ id ∈ ids, id ∈ a.pending) :
    Applied a (removeRivals relation keyed g ids a) := by
  obtain ⟨ok, linkedEnd, perm⟩ := removeRivals_spec relation keyed g linked nodup pending
  refine ⟨ok, linkedEnd, fun id mem => ?_⟩
  obtain ⟨x, left, rfl⟩ := List.mem_map.mp mem
  exact List.mem_map_of_mem (List.mem_filter.mp (perm.mem_iff.mp left)).1

/-- What removing candidates keeps, removing rivals keeps. -/
theorem removeRivals_keeps {P : Agenda → Prop} (kept : ∀ a id, P a → P (a.remove id).2)
    (relation : RelationId) (keyed : List (Nat × NodeId)) (g : Graph) (ids : List EdgeId)
    (holds : P a) : P (removeRivals relation keyed g ids a).2 := by
  induction ids generalizing a with
  | nil => exact holds
  | cons id rest ih =>
    rw [removeRivals_cons]
    split
    · have removed := kept a id holds
      generalize a.remove id = answer at removed
      obtain ⟨_ | _, a'⟩ := answer
      · exact removed
      · exact ih removed
    · exact ih holds

/-- A score with the penalty, and the priority that a fact has with it. -/
def penalized (penalty : Float) (p : Priority) (g : Graph) (e : Edge) (old : Score) :
    Score × Double :=
  (old.plus (.constant penalty), p.of g e (old.plus (.constant penalty)))

theorem penalize_cons (penalty : Float) (p : Priority) (g : Graph) (id : EdgeId)
    (rest : List EdgeId) (a : Agenda) : penalize penalty p g (id :: rest) a =
      match g.edge id with
      | .error _ => penalize penalty p g rest a
      | .ok e =>
        match a.updateScore id (penalized penalty p g e) with
        | (.error failure, a) => (.error failure, a)
        | (.ok _, a) => penalize penalty p g rest a :=
  rfl

/-- What a penalty for some candidates makes of an entry. -/
def repriced (penalty : Float) (p : Priority) (g : Graph) (ids : List EdgeId) (x : Entry) : Entry :=
  match g.edge x.edge with
  | .ok e =>
    if x.edge ∈ ids then
      { x with
        score := (penalized penalty p g e x.score).1
        priority := (penalized penalty p g e x.score).2 }
    else x
  | .error _ => x

@[simp] theorem edge_repriced (penalty : Float) (p : Priority) (g : Graph) (x : Entry) :
    (repriced penalty p g ids x).edge = x.edge := by
  unfold repriced
  split
  · split <;> simp
  · rfl

/-- Changing the scores of candidates that are pending, each of them once, succeeds. It changes
the entries of those that are live, and leaves all others as they are. -/
theorem penalize_spec (penalty : Float) (p : Priority) (g : Graph) (linked : a.Linked)
    (nodup : ids.Nodup) (pending : ∀ id ∈ ids, id ∈ a.pending) :
    (penalize penalty p g ids a).1 = .ok () ∧ (penalize penalty p g ids a).2.Linked ∧
      (penalize penalty p g ids a).2.toList.Perm (a.toList.map (repriced penalty p g ids)) := by
  induction ids generalizing a with
  | nil =>
    have none : repriced penalty p g [] = id := by
      funext x
      unfold repriced
      split <;> simp
    exact ⟨rfl, linked, .of_eq (by simp [penalize, none])⟩
  | cons id rest ih =>
    obtain ⟨fresh, nodupRest⟩ := List.nodup_cons.mp nodup
    obtain ⟨here, pendingRest⟩ := List.forall_mem_cons.mp pending
    rw [penalize_cons]
    cases live : g.edge id with
    | error failure =>
      have passed : repriced penalty p g (id :: rest) = repriced penalty p g rest := by
        funext x
        by_cases same : x.edge = id
        · simp [repriced, same, live]
        · simp [repriced, same]
      rw [passed]
      exact ih linked nodupRest pendingRest
    | ok e =>
      simp only
      obtain ⟨x, _, _, changed, linked', perm⟩ :=
        linked.updateScore here (penalized penalty p g e)
      have edges := Agenda.pending_updated _ perm
      generalize a.updateScore id (penalized penalty p g e) = answer at changed linked' perm edges
      obtain ⟨result, a'⟩ := answer
      obtain rfl : result = .ok x.score := changed
      obtain ⟨ok, linkedEnd, permEnd⟩ := ih linked' nodupRest fun other mem =>
        edges.mem_iff.mpr (pendingRest other mem)
      have composed : repriced penalty p g rest ∘ Agenda.updated id (penalized penalty p g e) =
          repriced penalty p g (id :: rest) := by
        funext y
        by_cases same : y.edge = id
        · simp [repriced, Agenda.updated, same, live, fresh]
        · simp [repriced, Agenda.updated, same]
      refine ⟨ok, linkedEnd, permEnd.trans ?_⟩
      rw [← composed, ← List.map_map]
      exact perm.map _

theorem pending_repriced {penalty : Float} {p : Priority} {g : Graph} {a' : Agenda}
    (perm : a'.toList.Perm (a.toList.map (repriced penalty p g ids))) :
    a'.pending.Perm a.pending := by
  refine (perm.map Entry.edge).trans (.of_eq ?_)
  simp [Agenda.pending, Function.comp_def]

/-- What changing scores keeps, a penalty keeps. -/
theorem penalize_keeps {P : Agenda → Prop} {penalty : Float} {p : Priority} {g : Graph}
    (kept : ∀ a id e, g.edge id = .ok e → P a →
      P (a.updateScore id (penalized penalty p g e)).2)
    (ids : List EdgeId) (holds : P a) : P (penalize penalty p g ids a).2 := by
  induction ids generalizing a with
  | nil => exact holds
  | cons id rest ih =>
    rw [penalize_cons]
    cases live : g.edge id with
    | error failure => exact ih holds
    | ok e =>
      simp only
      have updated := kept a id e live holds
      generalize a.updateScore id (penalized penalty p g e) = answer at updated
      obtain ⟨_ | _, a'⟩ := answer
      · exact updated
      · exact ih updated

/-- The candidates that touch an argument of a fact, each once. -/
theorem nodup_touching (a : Agenda) (nodes : List NodeId) :
    (ascending (distinct (nodes.flatMap a.adjacent))).Nodup :=
  (List.mergeSort_perm _ _).nodup_iff.mpr (nodup_distinct _)

/-- The candidates that touch an argument of a fact are pending. -/
theorem pending_of_touched (linked : a.Linked) {nodes : List NodeId} {id : EdgeId}
    (mem : id ∈ ascending (distinct (nodes.flatMap a.adjacent))) : id ∈ a.pending := by
  obtain ⟨n, _, adjacent⟩ := List.mem_flatMap.mp (mem_distinct.mp (mem_ascending.mp mem))
  exact (linked.adjacent n).2 id adjacent

/-- A factor succeeds, whatever completed its pattern, and adds no candidate. -/
theorem rescore_spec (f : Factor) (bindings : List Binding) (g : Graph) (p : Priority)
    (linked : a.Linked) : Applied a (f.rescore bindings g p a) := by
  unfold rescore
  split
  · exact .refl linked
  · split
    · split
      · rename_i anchor _ _
        obtain ⟨nodup, pending⟩ := linked.adjacent anchor.2
        exact applied_removeRivals _ _ g linked nodup pending
      · exact .refl linked
    · obtain ⟨ok, linkedEnd, perm⟩ := penalize_spec _ p g linked (nodup_touching a _) fun _ mem =>
        pending_of_touched linked mem
      exact ⟨ok, linkedEnd, fun id mem => (pending_repriced perm).mem_iff.mp mem⟩

/-- The factor takes candidates off the agenda. -/
def Excludes : Factor → Prop
  | .exclusion _ => True
  | .adjacentPenalty _ => False

/-- A factor that takes no candidates off the agenda leaves the same ones pending. -/
theorem perm_pending_rescore {f : Factor} (lenient : ¬ f.Excludes) (bindings : List Binding)
    (g : Graph) (p : Priority) (linked : a.Linked) :
    (f.rescore bindings g p a).2.pending.Perm a.pending := by
  cases f with
  | exclusion keyArgs => exact absurd trivial lenient
  | adjacentPenalty penalty =>
    unfold rescore
    split
    · exact .refl _
    · obtain ⟨_, _, perm⟩ := penalize_spec penalty p g linked (nodup_touching a _) fun _ mem =>
        pending_of_touched linked mem
      exact pending_repriced perm

end ScoredChaining.Factor
