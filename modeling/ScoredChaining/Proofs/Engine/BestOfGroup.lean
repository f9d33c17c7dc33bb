import ScoredChaining.Proofs.Engine.Agreement
import ScoredChaining.Proofs.Engine.Groups
import ScoredChaining.Proofs.Engine.Verdicts

/-!
Constraints that ask for at least one fact keep the best candidate of each group.

Candidates come off the agenda best first, and such a constraint accepts the first of a group and
refuses the others. What it has seen is forgotten with the agenda, so the groups begin anew there.

* `Engine.unforgotten`: the operations since then.
* `Engine.records_cleared`: nothing is recorded when they begin.
* `Engine.Reachable.atLeastOne_kept`: the first candidate of a group is accepted, the others are
  refused, and no candidate that is pending comes above it.
-/

namespace ScoredChaining.Engine

variable {Custom : Type} [Decider Custom]

variable {e : Engine Custom} {g : Group} {keys : Set GroupKey} {op : Operation Custom}
  {ops : List (Operation Custom)}

/-- The operations after the last that forgets the record. -/
def unforgotten (ops : List (Operation Custom)) : List (Operation Custom) :=
  ops.rtakeWhile fun op => ¬ op.Forgets

omit [Decider Custom] in
theorem not_forgets_of_mem (mem : op ∈ unforgotten ops) : ¬ op.Forgets := by
  simpa using List.mem_rtakeWhile_imp mem

theorem performAll_cleared (e : Engine Custom) (ops : List (Operation Custom)) :
    (e.cleared ops).performAll (unforgotten ops) = e.performAll ops := by
  rw [cleared, unforgotten, ← performAll_append, List.rdropWhile_append_rtakeWhile]

/-- Whatever is done, the constraint stays the first that is asked. -/
theorem exists_records_perform (records : e.decisions.Records g keys) (mode : g.mode ≠ .atMostOne)
    (op : Operation Custom) : ∃ keys', (op.perform e).decisions.Records g keys' := by
  by_cases forgets : op.Forgets
  · rw [perform_forgets forgets]
    exact ⟨∅, records.clear⟩
  · exact ⟨_, records_perform_of_ne records mode forgets⟩

theorem exists_records_performAll (records : e.decisions.Records g keys)
    (mode : g.mode ≠ .atMostOne) (ops : List (Operation Custom)) :
    ∃ keys', (e.performAll ops).decisions.Records g keys' := by
  induction ops generalizing e keys with
  | nil => exact ⟨keys, records⟩
  | cons op rest ih =>
    obtain ⟨_, recorded⟩ := exists_records_perform records mode op
    exact ih recorded

/-- Nothing is recorded once the record is forgotten. -/
theorem records_cleared (records : e.decisions.Records g ∅) (mode : g.mode ≠ .atMostOne)
    (ops : List (Operation Custom)) : (e.cleared ops).decisions.Records g ∅ := by
  induction ops using List.reverseRecOn with
  | nil => exact records
  | append_singleton ops op ih =>
    by_cases forgets : op.Forgets
    · rw [cleared_of_forgets forgets, perform_forgets forgets]
      obtain ⟨_, recorded⟩ := exists_records_performAll records mode ops
      exact recorded.clear
    · rw [cleared_append_keeps forgets]
      exact ih

/-- No pending candidate comes above the one that a step takes. -/
theorem Agrees.taken_highest (agrees : e.Agrees) {c : Candidate} {edge : Edge}
    (taken : e.taken? = some (c, edge)) :
    ∀ x ∈ e.agenda.toList, totalRank x.priority ≤ totalRank c.priority := by
  have popped := pop_of_taken taken
  have busy : e.agenda.isEmpty = false := by
    cases empty : e.agenda.isEmpty with
    | false => rfl
    | true => rw [Agenda.pop_of_isEmpty empty] at popped; cases popped
  obtain ⟨x, _, ok, highest⟩ := agrees.agenda.valid.pop_highest busy
  obtain rfl : Agenda.candidate x = c := Except.ok.inj (ok.symm.trans popped)
  exact highest

/-- Of the candidates of a group that come off the agenda while the record lasts, exactly the first
is accepted, whatever its score, and no pending candidate comes above it. So each of these groups
has a committed fact. -/
theorem Reachable.atLeastOne_kept (reachable : Reachable e) (mode : g.mode = .atLeastOne)
    (leads : e.decisions.Leads g) (fresh : g.seen = [])
    (decoding : .step .oracle ∉ unforgotten ops) :
    let e' := e.performAll ops
    let earlier := g.keysOf (gathered takenBy (e.cleared ops) (unforgotten ops))
    earlier ⊆ g.keysOf e'.facts.contents ∧
      (∀ c, e'.agenda.pop.1 = .ok c → ∃ edge, e'.taken? = some (c, edge)) ∧
      (∀ c edge, e'.taken? = some (c, edge) → edge.relation = g.relation →
        (g.key edge ∉ earlier → e'.Admits c edge) ∧ (g.key edge ∈ earlier → e'.Refuses c) ∧
          ∀ x ∈ e'.agenda.toList, totalRank x.priority ≤ totalRank c.priority) ∧
      ∀ fuel limit, ∃ n, (Engine.runWithin .decoder fuel limit e').engine =
        e'.performAll (.replicate n (.step .decoder)) := by
  intro e' earlier
  have notAtMost : g.mode ≠ .atMostOne := by simp [mode]
  have coherent : (e.cleared ops).Coherent := reachable.coherent.performAll _
  obtain ⟨records, covered⟩ := coherent.covered_performAll
    (records_cleared (.of_leads leads fresh) notAtMost ops) (Set.empty_subset _) notAtMost
    (fun _ => not_forgets_of_mem) decoding
  rw [Set.empty_union, performAll_cleared] at records covered
  have coherent' : e'.Coherent := reachable.coherent.performAll ops
  refine ⟨covered, fun _ => coherent'.exists_taken, fun c edge taken related => ⟨?_, ?_, ?_⟩,
    fun fuel limit => runWithin_eq_performAll .decoder fuel limit e'⟩
  · intro new
    exact coherent'.admits taken (records.accepts notAtMost related new _)
  · intro known
    exact coherent'.refuses taken (records.refuses related known _)
  · exact (reachable.performAll ops).agrees.taken_highest taken

/-- Links from 1 to 2, to 3 and to 4. The first is taken as a candidate, the agenda is cleared, and
the others become candidates, which both score below the threshold. -/
def linksFromOne : List Operation :=
  [.makeEdgeFromValues ⟨0⟩ [.int 1, .int 2] .temporary,
    .makeEdgeFromValues ⟨0⟩ [.int 1, .int 3] .temporary,
    .makeEdgeFromValues ⟨0⟩ [.int 1, .int 4] .temporary,
    .addCandidate ⟨.temporary, 0⟩ (.constant 1.0), .step .decoder, .clearAgenda,
    .addCandidate ⟨.temporary, 1⟩ (.constant (-2.0)),
    .addCandidate ⟨.temporary, 2⟩ (.constant (-1.0))]

/-- Of the candidates after the agenda was cleared, the better one is accepted although one of its
group was accepted before. Then the other is refused. -/
theorem atLeastOne_kept_linkable :
    let g := perPoint .atLeastOne
    let e := linkable.addPolicy ⟨0⟩ (.group g)
    let best : Edge := ⟨⟨0⟩, ⟨.temporary, 6⟩, [⟨.temporary, 0⟩, ⟨.temporary, 5⟩]⟩
    Reachable e ∧ e.decisions.Leads g ∧ g.seen = [] ∧
      .step .oracle ∉ unforgotten linksFromOne ∧
      (∃ c, c.edge = ⟨.temporary, 2⟩ ∧ (e.performAll linksFromOne).Admits c best) ∧
      ∃ c, c.edge = ⟨.temporary, 1⟩ ∧
        (e.performAll (linksFromOne ++ [.step .decoder])).Refuses c := by
  intro g e best
  have reachable : Reachable e := reachable_linkable.next (.addPolicy ⟨0⟩ (.group g))
  have leads : e.decisions.Leads g := Dispatch.leads_add rfl
  have rest : unforgotten linksFromOne = [.addCandidate ⟨.temporary, 1⟩ (.constant (-2.0)),
      .addCandidate ⟨.temporary, 2⟩ (.constant (-1.0))] := rfl
  have restAfter : unforgotten (linksFromOne ++ [.step .decoder]) =
      unforgotten linksFromOne ++ [.step .decoder] := rfl
  have decoding : .step .oracle ∉ unforgotten linksFromOne := by simp [rest]
  have decodingAfter : .step .oracle ∉ unforgotten (linksFromOne ++ [.step .decoder]) := by
    simp [restAfter, rest]
  have first : (e.performAll linksFromOne).taken?.map (fun x => (x.1.edge, x.2)) =
      some (⟨.temporary, 2⟩, best) := by
    decide +kernel
  have second : (e.performAll (linksFromOne ++ [.step .decoder])).taken?.map
      (fun x => (x.1.edge, x.2)) =
      some (⟨.temporary, 1⟩, ⟨⟨0⟩, ⟨.temporary, 4⟩, [⟨.temporary, 0⟩, ⟨.temporary, 3⟩]⟩) := by
    decide +kernel
  obtain ⟨⟨c, _⟩, taken, same⟩ := Option.map_eq_some_iff.mp first
  obtain ⟨⟨c', _⟩, taken', same'⟩ := Option.map_eq_some_iff.mp second
  obtain ⟨isFirst, rfl⟩ := Prod.mk.inj same
  obtain ⟨isSecond, rfl⟩ := Prod.mk.inj same'
  obtain ⟨_, _, decided, _⟩ := Reachable.atLeastOne_kept reachable rfl leads rfl decoding
  obtain ⟨_, _, decidedAfter, _⟩ := Reachable.atLeastOne_kept reachable rfl leads rfl decodingAfter
  refine ⟨reachable, leads, rfl, decoding, ⟨c, isFirst, (decided c _ taken rfl).1 ?_⟩,
    c', isSecond, (decidedAfter c' _ taken' rfl).2.1 ?_⟩
  · rw [rest]
    simp [gathered, takenBy, Operation.taken?, Group.keysOf]
  · refine ⟨best, ?_, rfl, rfl⟩
    rw [restAfter, cleared_append_keeps (by exact id), rest]
    rw [← performAll_cleared, rest] at taken
    exact .inr (.inr (.inl ⟨c, taken⟩))

end ScoredChaining.Engine
