import ScoredChaining.Proofs.Agenda.Agreement
import ScoredChaining.Proofs.Agenda.Tidy
import ScoredChaining.Proofs.Graph.Histories

/-!
What a factor makes of the pending candidates.

* `Agenda.Live`: every candidate is a live fact, and the agenda knows it by the nodes of the fact.
* `Factor.rescore_exclusion_spec`: an exclusion looks for the rivals of a fact among the candidates
  that touch one node of it only, and finds all of them there.
* `Factor.exclusion_takes_rivals`: it takes just the rivals off the agenda.
* `Factor.penalty_once`: a penalty changes the scores of just the candidates that touch an argument
  of the fact, and of each of them once.
-/

namespace ScoredChaining

variable {a : Agenda} {g : Graph} {p : Priority} {fact : Edge} {bindings : List Binding}
  {keyArgs : List Nat}

namespace Agenda

/-- Every candidate is a live fact, and its entry lists the nodes of the fact. -/
def Live (a : Agenda) (g : Graph) : Prop :=
  ∀ x ∈ a.toList, ∃ e, g.edges.get? x.edge = some e ∧ ∀ n, n ∈ x.nodes ↔ n = e.head ∨ n ∈ e.tail

theorem Agrees.live (agrees : a.Agrees g p) : a.Live g := by
  intro x mem
  obtain ⟨e, ⟨live, nodes⟩, _⟩ := agrees.entries x mem
  refine ⟨e, live, fun n => ?_⟩
  rw [nodes, mem_distinct, List.mem_cons]

/-- The candidates that touch a node are the facts that have it. -/
theorem Sound.mem_adjacent_iff (sound : a.Sound) (live : a.Live g) {x : Entry} (mem : x ∈ a.toList)
    {e : Edge} (isFact : g.edges.get? x.edge = some e) (n : NodeId) :
    x.edge ∈ a.adjacent n ↔ n = e.head ∨ n ∈ e.tail := by
  obtain ⟨e', live', nodes⟩ := live x mem
  obtain rfl := Option.some.inj (isFact.symm.trans live')
  rw [sound.mem_adjacent, ← nodes]
  constructor
  · rintro ⟨y, memY, same, touches⟩
    rwa [← sound.linked.entry_unique memY mem same]
  · intro touches
    exact ⟨x, mem, rfl, touches⟩

/-- The facts are pending, each with the score one. -/
def ofFacts (g : Graph) (p : Priority) (ids : List EdgeId) : Agenda :=
  ids.foldl (fun a id =>
    match g.edges.get? id with
    | some e => (a.add id e (.constant 1.0) (p.of g e (.constant 1.0))).2
    | none => a) empty

theorem agrees_ofFacts (g : Graph) (p : Priority) (ids : List EdgeId) :
    (ofFacts g p ids).Agrees g p := by
  induction ids using List.reverseRecOn with
  | nil => exact .empty g p
  | append_singleton ids id ih =>
    rw [ofFacts, List.foldl_append, List.foldl_cons, List.foldl_nil, ← ofFacts]
    cases live : g.edges.get? id with
    | none => exact ih
    | some e => exact ih.add live _

theorem mem_pending_ofFacts {ids : List EdgeId} {id : EdgeId} :
    id ∈ (ofFacts g p ids).pending ↔ id ∈ ids ∧ (g.edges.get? id).isSome := by
  induction ids using List.reverseRecOn with
  | nil => simp [ofFacts, pending, toList, empty]
  | append_singleton ids d ih =>
    have linked := (agrees_ofFacts g p ids).valid.linked
    rw [ofFacts, List.foldl_append, List.foldl_cons, List.foldl_nil, ← ofFacts]
    cases live : g.edges.get? d with
    | none => grind
    | some e =>
      simp only
      cases absent : (ofFacts g p ids).contains d with
      | true =>
        rw [add_of_contains absent]
        have present := linked.contains_iff.mp absent
        grind
      | false =>
        obtain ⟨_, _, perm⟩ := linked.add absent e (.constant 1.0) (p.of g e (.constant 1.0))
        have edges := (perm.map Entry.edge).mem_iff (a := id)
        rw [List.map_append, List.mem_append, ← pending, ← pending, ih] at edges
        simp only [List.map_cons, List.map_nil, List.mem_singleton] at edges
        grind

end Agenda

/-- The facts `link(1, 1)`, `link(1, 2)`, `link(2, 1)`, `next(1, 3)` and `link(2, 3)`. -/
def crossing : Graph :=
  .performAll [.declareByNames "link" ["point", "point"],
    .declareByNames "next" ["point", "point"],
    .makeEdgeFromValues ⟨0⟩ [.int 1, .int 1] .temporary,
    .makeEdgeFromValues ⟨0⟩ [.int 1, .int 2] .temporary,
    .makeEdgeFromValues ⟨0⟩ [.int 2, .int 1] .temporary,
    .makeEdgeFromValues ⟨1⟩ [.int 1, .int 3] .temporary,
    .makeEdgeFromValues ⟨0⟩ [.int 2, .int 3] .temporary]

/-- All facts but `link(1, 1)` are pending. -/
def awaiting : Agenda :=
  .ofFacts crossing .byScore
    [⟨.temporary, 1⟩, ⟨.temporary, 2⟩, ⟨.temporary, 3⟩, ⟨.temporary, 4⟩]

/-- A walk that met the fact `link(1, 1)`. -/
def looped : List Binding :=
  [⟨.relation ⟨0⟩ .head, .edge ⟨.temporary, 0⟩⟩]

namespace Factor

/-! ### Exclusions -/

/-- The positions of a fact that it has all are where another fact can agree with it. -/
theorem exists_anchor (nonempty : keyArgs ≠ []) (inRange : ∀ k ∈ keyArgs, fact.tail[k]? ≠ none) :
    ∃ anchor others, keyed? keyArgs fact = some (anchor :: others) := by
  cases found : keyed? keyArgs fact with
  | none =>
    obtain ⟨k, mem, absent⟩ := keyed?_eq_none_iff.mp found
    exact absurd absent (inRange k mem)
  | some keyed =>
    cases keyed with
    | nil => exact absurd (of_keyed?_eq_some found).1.symm nonempty
    | cons anchor others => exact ⟨anchor, others, rfl⟩

/-- An exclusion leaves just the candidates that do not agree with the fact. -/
theorem rescore_exclusion_spec (sound : a.Sound) (live : a.Live g)
    (committed : committed? bindings g = some fact) {anchor : Nat × NodeId}
    {others : List (Nat × NodeId)} (keyed : keyed? keyArgs fact = some (anchor :: others)) :
    ((Factor.exclusion keyArgs).rescore bindings g p a).1 = .ok () ∧
      ((Factor.exclusion keyArgs).rescore bindings g p a).2.Sound ∧
      ((Factor.exclusion keyArgs).rescore bindings g p a).2.toList.Perm
        (a.toList.filter fun x => !isRival fact.relation (anchor :: others) g x.edge) := by
  simp only [rescore, committed, keyed]
  obtain ⟨nodup, pending⟩ := sound.linked.adjacent anchor.2
  obtain ⟨ok, _, perm⟩ :=
    removeRivals_spec fact.relation (anchor :: others) g sound.linked nodup pending
  refine ⟨ok, removeRivals_keeps (fun _ id sound => sound.remove id) _ _ g _ sound, ?_⟩
  refine perm.trans (.of_eq (List.filter_congr fun x mem => ?_))
  cases rival : isRival fact.relation (anchor :: others) g x.edge with
  | false => simp
  | true =>
    -- A rival has the anchor among its arguments, so it is one of the candidates asked.
    obtain ⟨e, isFact, agreeing⟩ := isRival_eq_true_iff.mp rival
    have at_ : e.tail[anchor.1]? = some anchor.2 := by
      obtain ⟨names, nodes⟩ := of_keyed?_eq_some keyed
      have isKey : anchor.1 ∈ keyArgs := names ▸ List.mem_cons_self
      rw [((agrees_iff keyed).mp agreeing).2 _ isKey, nodes anchor List.mem_cons_self]
    have touches := (sound.mem_adjacent_iff live mem (Graph.edge_eq_ok_iff.mp isFact) anchor.2).mpr
      (.inr (List.mem_of_getElem? at_))
    simp [touches]

/-- An exclusion takes just the rivals of the fact off the agenda: the candidates of its relation
that have the same node at every position. It takes none if the fact lacks a position. The entries
of all others stay as they are. -/
theorem exclusion_takes_rivals (sound : a.Sound) (live : a.Live g)
    (committed : committed? bindings g = some fact) (nonempty : keyArgs ≠ []) :
    let answer := (Factor.exclusion keyArgs).rescore bindings g p a
    answer.1 = .ok () ∧ answer.2.Sound ∧
      ∀ x, x ∈ answer.2.toList ↔ x ∈ a.toList ∧ ∃ e, g.edges.get? x.edge = some e ∧
        (e.relation ≠ fact.relation ∨
          ∃ k ∈ keyArgs, fact.tail[k]? = none ∨ e.tail[k]? ≠ fact.tail[k]?) := by
  intro answer
  by_cases inRange : ∀ k ∈ keyArgs, fact.tail[k]? ≠ none
  · obtain ⟨anchor, others, keyed⟩ := exists_anchor nonempty inRange
    obtain ⟨ok, soundAfter, perm⟩ := rescore_exclusion_spec (p := p) sound live committed keyed
    refine ⟨ok, soundAfter, fun x => ?_⟩
    rw [perm.mem_iff, List.mem_filter, Bool.not_eq_true', ← Bool.not_eq_true, isRival_eq_true_iff]
    refine and_congr_right fun mem => ?_
    obtain ⟨e, isFact, _⟩ := live x mem
    have differs : ¬agrees fact.relation (anchor :: others) e = true ↔
        e.relation ≠ fact.relation ∨
          ∃ k ∈ keyArgs, fact.tail[k]? = none ∨ e.tail[k]? ≠ fact.tail[k]? := by
      rw [agrees_iff keyed]
      grind
    simp only [Graph.edge_eq_ok_iff, isFact, Option.some.injEq, exists_eq_left', ← differs]
  · push Not at inRange
    obtain ⟨k, isKey, absent⟩ := inRange
    have unchanged : answer = (.ok (), a) := by
      have keyed := keyed?_eq_none_iff.mpr ⟨k, isKey, absent⟩
      simp only [answer, rescore, committed, keyed]
    rw [unchanged]
    refine ⟨rfl, sound, fun x => ?_⟩
    constructor
    · intro mem
      obtain ⟨e, isFact, _⟩ := live x mem
      exact ⟨mem, e, isFact, .inr ⟨k, isKey, .inl absent⟩⟩
    · exact And.left

/-- Of the three candidates that touch the first argument of `link(1, 1)`, the exclusion on that
argument takes off `link(1, 2)` only. -/
theorem exclusion_takes_rivals_crossing :
    awaiting.Sound ∧ awaiting.Live crossing ∧
      (∃ fact, committed? looped crossing = some fact) ∧ [0] ≠ [] ∧
      (∀ x ∈ awaiting.toList, x.edge = ⟨.temporary, 1⟩ →
        x ∉ ((Factor.exclusion [0]).rescore looped crossing .byScore awaiting).2.toList) ∧
      ∀ x ∈ awaiting.toList, x.edge ≠ ⟨.temporary, 1⟩ →
        x ∈ ((Factor.exclusion [0]).rescore looped crossing .byScore awaiting).2.toList := by
  have agrees : awaiting.Agrees crossing .byScore := Agenda.agrees_ofFacts _ _ _
  let fact : Edge := ⟨⟨0⟩, ⟨.temporary, 1⟩, [⟨.temporary, 0⟩, ⟨.temporary, 0⟩]⟩
  have committed : committed? looped crossing = some fact := by decide +kernel
  obtain ⟨_, _, left⟩ := exclusion_takes_rivals (p := .byScore) agrees.valid.sound agrees.live
    committed (by decide : [0] ≠ [])
  refine ⟨agrees.valid.sound, agrees.live, ⟨fact, committed⟩, by decide, ?_, ?_⟩
  · intro x mem isRival stays
    obtain ⟨_, e, isFact, differs⟩ := (left x).mp stays
    rw [isRival] at isFact
    obtain rfl : ⟨⟨0⟩, ⟨.temporary, 3⟩, [⟨.temporary, 0⟩, ⟨.temporary, 2⟩]⟩ = e := by
      refine Option.some.inj (.trans (.symm ?_) isFact)
      decide +kernel
    revert differs
    decide
  · intro x mem other
    have pending : x.edge ∈ awaiting.pending := List.mem_map_of_mem mem
    refine (left x).mpr ⟨mem, ?_⟩
    obtain ⟨listed, _⟩ := Agenda.mem_pending_ofFacts.mp pending
    simp only [List.mem_cons, List.not_mem_nil, or_false] at listed
    rcases listed with rival | swapped | next | apart
    · exact absurd rival other
    · rw [swapped]
      exact ⟨⟨⟨0⟩, ⟨.temporary, 4⟩, [⟨.temporary, 2⟩, ⟨.temporary, 0⟩]⟩, by decide +kernel,
        by decide⟩
    · rw [next]
      exact ⟨⟨⟨1⟩, ⟨.temporary, 6⟩, [⟨.temporary, 0⟩, ⟨.temporary, 5⟩]⟩, by decide +kernel,
        by decide⟩
    · rw [apart]
      exact ⟨⟨⟨0⟩, ⟨.temporary, 7⟩, [⟨.temporary, 2⟩, ⟨.temporary, 5⟩]⟩, by decide +kernel,
        by decide⟩

/-! ### Penalties -/

/-- A penalty reaches just the candidates that touch an argument of the fact. -/
theorem mem_touching_iff (sound : a.Sound) (live : a.Live g) {x : Entry} (mem : x ∈ a.toList)
    {e : Edge} (isFact : g.edges.get? x.edge = some e) :
    x.edge ∈ ascending (distinct (fact.tail.flatMap a.adjacent)) ↔
      ∃ n ∈ fact.tail, n = e.head ∨ n ∈ e.tail := by
  simp only [mem_ascending, mem_distinct, List.mem_flatMap,
    sound.mem_adjacent_iff live mem isFact]

/-- A penalty is applied to each of the candidates that touch an argument of the fact, once, however
many arguments they share with it and however often the fact has them. Their priorities are those of
the new scores. All other entries stay as they are, and the same candidates are pending. -/
theorem penalty_once (sound : a.Sound) (live : a.Live g)
    (committed : committed? bindings g = some fact) (penalty : Float) :
    let answer := (Factor.adjacentPenalty penalty).rescore bindings g p a
    answer.1 = .ok () ∧ answer.2.Sound ∧ answer.2.pending.Perm a.pending ∧
      ∀ x ∈ a.toList, ∀ e, g.edges.get? x.edge = some e →
        ∀ y ∈ answer.2.toList, y.edge = x.edge →
          ((∃ n ∈ fact.tail, n = e.head ∨ n ∈ e.tail) →
            y.score = .sum [x.score, .constant penalty] ∧ y.priority = p.of g e y.score ∧
              y.nodes = x.nodes) ∧
          ((¬∃ n ∈ fact.tail, n = e.head ∨ n ∈ e.tail) → y = x) := by
  simp only [rescore, committed]
  obtain ⟨ok, _, perm⟩ := penalize_spec penalty p g sound.linked (nodup_touching a fact.tail)
    fun _ mem => pending_of_touched sound.linked mem
  refine ⟨ok, penalize_keeps (fun _ id _ _ sound => sound.updateScore id _) _ sound,
    pending_repriced perm, ?_⟩
  intro x mem e isFact y memY same
  obtain ⟨x', mem', rfl⟩ := List.mem_map.mp (perm.mem_iff.mp memY)
  rw [edge_repriced] at same
  obtain rfl := sound.linked.entry_unique mem' mem same
  rw [← mem_touching_iff sound live mem isFact, repriced, Graph.edge_eq_ok_iff.mpr isFact]
  constructor
  · intro touches
    simp only [if_pos touches]
    exact ⟨rfl, rfl, trivial⟩
  · intro apart
    simp only [if_neg apart]

/-- `link(1, 1)` has its argument twice and `link(2, 1)` has it once; the penalty is added to the
score of `link(2, 1)` once. It does not reach `link(2, 3)`. -/
theorem penalty_once_crossing :
    awaiting.Sound ∧ awaiting.Live crossing ∧
      (∃ fact, committed? looped crossing = some fact) ∧
      let answer := (Factor.adjacentPenalty 2.0).rescore looped crossing .byScore awaiting
      answer.2.pending.Perm awaiting.pending ∧
      (∀ x ∈ awaiting.toList, x.edge = ⟨.temporary, 2⟩ → ∀ y ∈ answer.2.toList,
        y.edge = x.edge → y.score = .sum [x.score, .constant 2.0]) ∧
      ∀ x ∈ awaiting.toList, x.edge = ⟨.temporary, 4⟩ → ∀ y ∈ answer.2.toList,
        y.edge = x.edge → y = x := by
  have agrees : awaiting.Agrees crossing .byScore := Agenda.agrees_ofFacts _ _ _
  let fact : Edge := ⟨⟨0⟩, ⟨.temporary, 1⟩, [⟨.temporary, 0⟩, ⟨.temporary, 0⟩]⟩
  have committed : committed? looped crossing = some fact := by decide +kernel
  obtain ⟨_, _, pending, scores⟩ := penalty_once (p := .byScore) agrees.valid.sound agrees.live
    committed 2.0
  refine ⟨agrees.valid.sound, agrees.live, ⟨fact, committed⟩, pending, ?_, ?_⟩
  · intro x mem swapped y memY same
    obtain ⟨penalized, _⟩ := scores x mem ⟨⟨0⟩, ⟨.temporary, 4⟩, [⟨.temporary, 2⟩, ⟨.temporary, 0⟩]⟩
      (by rw [swapped]; decide +kernel) y memY same
    exact (penalized (by decide)).1
  · intro x mem far y memY same
    obtain ⟨_, unchanged⟩ := scores x mem ⟨⟨0⟩, ⟨.temporary, 7⟩, [⟨.temporary, 2⟩, ⟨.temporary, 5⟩]⟩
      (by rw [far]; decide +kernel) y memY same
    exact unchanged (by decide)

end Factor

end ScoredChaining
