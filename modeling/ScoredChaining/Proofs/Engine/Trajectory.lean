import ScoredChaining.Proofs.Engine.Balance

/-!
When a candidate comes off the agenda again.

A rejected candidate leaves the agenda, and nothing remembers it. A committed one does not come back
in the same document, since candidates are not added that are committed.

* `Engine.events`: what operations propose, and what their steps take off the agenda, in order.
* `Engine.Coherent.not_pending_of_taken`, `Engine.Coherent.fresh_perform`: what a step has taken is
  not pending after it, and nothing becomes pending that is committed.
* `Engine.Drops`: a step rejected the candidate that it took, or failed with the policies.
  `Engine.Coherent.drops_or_commits`: otherwise the candidate is committed after it.
* `Engine.Coherent.exists_taken_twice`: a fact that is recorded twice is taken by two steps.
* `Engine.Reachable.proposed_between`: between two steps that take a candidate it is proposed again,
  and the first of them dropped it.
-/

namespace ScoredChaining

variable {Custom : Type} [Decider Custom]

/-- What happens to candidates. -/
inductive Event where
  /-- The fact is proposed, by request or by a rule. -/
  | proposed (id : EdgeId)
  /-- A step takes the candidate off the agenda, and this is what comes of it. -/
  | taken (id : EdgeId) (result : Except EngineError Step)

namespace Event

/-- The step, if this is one. It is recorded if it succeeds. -/
def step? : Event → Option Step
  | .proposed _ => none
  | .taken _ result => result.toOption

theorem step?_eq_some_iff {x : Event} {s : Step} :
    x.step? = some s ↔ ∃ id, x = .taken id (.ok s) := by
  cases x with
  | proposed id => simp [step?]
  | taken id result => cases result <;> simp [step?, Except.toOption]

/-- The first is a step that rejects a candidate, and the second proposes it. -/
def RevivedBy : Event → Event → Prop
  | .taken id (.ok s), .proposed d => s.outcome = .rejected ∧ id = d
  | _, _ => False

instance : DecidableRel RevivedBy := fun x y => by
  unfold RevivedBy
  split <;> infer_instance

end Event

/-- The fact that the operation asks to make a candidate. -/
def Operation.requested? : Operation Custom → Option EdgeId
  | .addCandidate id _ => some id
  | _ => none

/-- The facts that the operation proposes. -/
def Operation.proposes (e : Engine Custom) (op : Operation Custom) : List EdgeId :=
  op.requested?.toList ++ (op.firings e).flatMap fun f => f.proposals.map Proposal.edge

/-- What the operation takes off the agenda, and then what it proposes. -/
def Operation.events (e : Engine Custom) (op : Operation Custom) : List Event :=
  (match op with
    | .step mode => e.taken?.toList.map fun x => .taken x.1.edge (e.step mode).1
    | _ => []) ++ (op.proposes e).map .proposed

namespace Engine

variable {e e' : Engine Custom} {c : Candidate} {edge : Edge} {mode : Mode} {op : Operation Custom}
  {ops : List (Operation Custom)} {id : EdgeId}

/-- What happens to candidates in operations one after the other. -/
def events (e : Engine Custom) : List (Operation Custom) → List Event
  | [] => []
  | op :: rest => op.events e ++ (op.perform e).events rest

/-- The steps among the operations that are recorded. -/
def trajectory (e : Engine Custom) (ops : List (Operation Custom)) : List Step :=
  (e.events ops).filterMap Event.step?

/-! ### What is pending after an operation -/

/-- What an operation makes pending, it proposes. -/
theorem Coherent.mem_proposes (coherent : e.Coherent) (pending : id ∈ (op.perform e).agenda.pending) :
    id ∈ e.agenda.pending ∨ id ∈ op.proposes e := by
  rw [Operation.proposes, List.mem_append, List.mem_flatMap]
  rcases coherent.fires_or_quiet op with ⟨d, edge, fires⟩ | quiet
  · rcases fires.pending id pending with old | ⟨f, called, p, proposed, rfl⟩
    · exact .inl old
    · exact .inr (.inr ⟨f, called, List.mem_map_of_mem proposed⟩)
  · rcases quiet.pending id pending with old | ⟨score, rfl⟩
    · exact .inl old
    · exact .inr (.inl (by simp [Operation.requested?]))

/-- Firing a fact makes nothing pending that is committed by then. -/
theorem Coherent.fresh_commitWith (coherent : e.Coherent) {d : EdgeId} {matching : Bool}
    (pending : id ∈ (e.commitWith d matching).2.agenda.pending) :
    id ∈ e.agenda.pending ∨ (e.commitWith d matching).2.facts.contains id = false := by
  cases live : e.graph.edges.get? d with
  | none => rw [(commitWith_of_dead live matching).1] at pending; exact .inl pending
  | some edge =>
    cases known : e.facts.contains d with
    | true => rw [(commitWith_of_contains live known matching).1] at pending; exact .inl pending
    | false =>
      cases matching with
      | false =>
        rw [(commitWith_quietly live known).1, record_of_new known] at pending
        exact .inl pending
      | true =>
        obtain ⟨_, pushes, _⟩ := coherent.commitWith_pushes live known
        rw [pushes.facts]
        have fresh := pushes.fresh id pending
        rw [record_of_new known] at fresh ⊢
        exact fresh

/-- What is pending after a step was pending beside the candidate that it takes, or is another fact
that is not committed. -/
theorem Coherent.pending_step (coherent : e.Coherent) (taken : e.taken? = some (c, edge))
    (pending : id ∈ (e.step mode).2.agenda.pending) :
    id ∈ (e.asked c edge).agenda.pending ∨
      id ≠ c.edge ∧ (e.step mode).2.facts.contains id = false := by
  have verdict := coherent.step_verdict taken mode
  generalize e.step mode = result at verdict pending ⊢
  cases verdict with
  | fails => exact .inl pending
  | rejects => exact .inl pending
  | knows => exact .inl pending
  | @commits _ after answer accepted new committed =>
    have facts := facts_of_commits taken new committed
    have fresh : id ∈ ((e.asked c edge).commitWith c.edge true).2.agenda.pending → _ :=
      (coherent.asked c edge).fresh_commitWith
    rw [committed] at fresh
    refine (fresh pending).imp_right fun absent => ⟨?_, absent⟩
    rintro rfl
    rw [facts, FactBase.contains_add_iff.mpr (.inl rfl)] at absent
    cases absent

/-- What a step has taken is not pending after it. -/
theorem Coherent.not_pending_of_taken (coherent : e.Coherent) (taken : e.taken? = some (c, edge))
    (mode : Mode) : c.edge ∉ (e.step mode).2.agenda.pending := by
  intro pending
  rcases coherent.pending_step taken pending with old | ⟨other, _⟩
  · exact not_pending_asked coherent.agenda taken old
  · exact other rfl

/-- Nothing becomes pending that is committed. -/
theorem Coherent.fresh_perform (coherent : e.Coherent)
    (pending : id ∈ (op.perform e).agenda.pending) :
    id ∈ e.agenda.pending ∨ (op.perform e).facts.contains id = false := by
  cases op with
  | addCandidate d score =>
    rw [Operation.perform, (Steady.addCandidate e d score).facts]
    exact Pushes.fresh_addCandidate coherent.agenda d score id pending
  | commit d matching => exact coherent.fresh_commitWith pending
  | step mode =>
    cases empty : e.agenda.isEmpty with
    | true =>
      rw [Operation.perform, (step_of_isEmpty empty mode).2] at pending
      exact .inl pending
    | false =>
      obtain ⟨c, edge, taken⟩ := coherent.exists_taken_of_busy empty
      rcases coherent.pending_step taken pending with old | ⟨_, absent⟩
      · have perm := pending_of_taken coherent.agenda taken
        exact .inl (perm.mem_iff.mpr (List.mem_cons_of_mem _ old))
      · exact .inr absent
  | addRule rule scorer =>
    rw [Operation.perform, Engine.addRule] at pending
    split at pending <;> exact .inl pending
  | setPriority priority =>
    exact .inl ((setPriority_settles coherent.agenda priority).pending id pending)
  | addGold d => exact .inl ((addGold_settles coherent.agenda d).pending id pending)
  | clearAgenda => exact .inl ((clearAgenda_settles e).pending id pending)
  | clearDocument => exact .inl ((clearAgenda_settles e).pending id pending)
  | _ => exact .inl pending

/-- The step rejected the candidate that it took, or failed with the policies. -/
inductive Drops : Except EngineError Step → Prop where
  | rejects {s : Step} (rejected : s.outcome = .rejected) : Drops (.ok s)
  | fails (failure : DecisionError) : Drops (.error (.decision failure))

/-- A candidate that a step takes without dropping it is committed after it. -/
theorem Coherent.drops_or_commits (coherent : e.Coherent) (taken : e.taken? = some (c, edge))
    (mode : Mode) :
    Drops (e.step mode).1 ∨ (e.step mode).2.facts.contains c.edge = true := by
  have verdict := coherent.step_verdict taken mode
  generalize e.step mode = result at verdict ⊢
  cases verdict with
  | fails => exact .inl (.fails _)
  | rejects => exact .inl (.rejects rfl)
  | knows _ _ known => exact .inr known
  | commits _ _ new committed =>
    right
    rw [facts_of_commits taken new committed]
    exact FactBase.contains_add_iff.mpr (.inl rfl)

/-- A step reports about the candidate that it takes. -/
theorem Coherent.edge_of_recorded (coherent : e.Coherent) (taken : e.taken? = some (c, edge))
    {s : Step} (ok : (e.step mode).1 = .ok s) : s.edge = c.edge := by
  have verdict := coherent.step_verdict taken mode
  generalize e.step mode = result at verdict ok
  cases verdict <;> cases ok <;> rfl

/-! ### Events -/

theorem events_of_taken (taken : e.taken? = some (c, edge)) (mode : Mode) :
    (Operation.step mode).events e = .taken c.edge (e.step mode).1 ::
      ((Operation.step mode).proposes e).map .proposed := by
  simp [Operation.events, taken]

theorem taken_not_proposed {proposed : List EdgeId} {before after : List Event}
    {result : Except EngineError Step} :
    proposed.map .proposed ≠ before ++ .taken id result :: after := by
  intro same
  have mem : .taken id result ∈ proposed.map Event.proposed := by simp [same]
  simp at mem

/-- Only steps take candidates, and a step takes one before it proposes any. -/
theorem exists_step_of_taken {before after : List Event} {result : Except EngineError Step}
    (split : op.events e = before ++ .taken id result :: after) :
    ∃ mode c edge, op = .step mode ∧ e.taken? = some (c, edge) ∧ c.edge = id ∧
      result = (e.step mode).1 ∧ after = (op.proposes e).map .proposed := by
  cases op with
  | step mode =>
    cases taken : e.taken? with
    | none =>
      simp only [Operation.events, taken] at split
      exact absurd split taken_not_proposed
    | some x =>
      rw [events_of_taken taken] at split
      rcases List.append_eq_cons_iff.mp split.symm with ⟨_, first⟩ | ⟨_, _, later⟩
      · cases first
        exact ⟨mode, x.1, x.2, rfl, rfl, rfl, rfl, rfl⟩
      · exact absurd later taken_not_proposed
  | _ => exact absurd split taken_not_proposed

/-- An event stands in the first part of the events or in the second. -/
theorem append_split {first second before after : List Event} {x : Event}
    (split : first ++ second = before ++ x :: after) :
    (∃ between, first = before ++ x :: between ∧ after = between ++ second) ∨
      ∃ between, before = first ++ between ∧ second = between ++ x :: after := by
  rcases List.append_eq_append_iff.mp split with later | ⟨between, here, same⟩
  · exact .inr later
  · rcases List.cons_eq_append_iff.mp same with ⟨rfl, start⟩ | ⟨between', rfl, start⟩
    · exact .inr ⟨[], by simpa using here.symm, by simpa using start⟩
    · exact .inl ⟨between', here, start⟩

/-- A candidate that is not pending is proposed before a step takes it. -/
theorem Coherent.proposed_before (coherent : e.Coherent) (absent : id ∉ e.agenda.pending)
    {before after : List Event} {result : Except EngineError Step}
    (split : e.events ops = before ++ .taken id result :: after) : .proposed id ∈ before := by
  induction ops generalizing e before with
  | nil => simp [events] at split
  | cons op rest ih =>
    rcases append_split split with ⟨_, here, _⟩ | ⟨between, rfl, later⟩
    · obtain ⟨_, c, edge, _, taken, rfl, _⟩ := exists_step_of_taken here
      exact absurd (mem_pending_of_taken coherent.agenda taken) absent
    · by_cases pending : id ∈ (op.perform e).agenda.pending
      · have proposed := (coherent.mem_proposes pending).resolve_left absent
        refine List.mem_append_left _ (List.mem_append_right _ ?_)
        exact List.mem_map_of_mem proposed
      · exact List.mem_append_right _ (ih (coherent.perform op) pending later)

/-- A committed fact that is not pending is not taken off the agenda in the same document. -/
theorem Coherent.not_taken_of_committed (coherent : e.Coherent) (absent : id ∉ e.agenda.pending)
    (known : e.facts.contains id = true) (keeps : ∀ op ∈ ops, op ≠ .clearDocument)
    {before after : List Event} {result : Except EngineError Step} :
    e.events ops ≠ before ++ .taken id result :: after := by
  intro split
  induction ops generalizing e before with
  | nil => simp [events] at split
  | cons op rest ih =>
    obtain ⟨keepsFirst, keepsRest⟩ := List.forall_mem_cons.mp keeps
    rcases append_split split with ⟨_, here, _⟩ | ⟨between, rfl, later⟩
    · obtain ⟨_, c, edge, _, taken, rfl, _⟩ := exists_step_of_taken here
      exact absent (mem_pending_of_taken coherent.agenda taken)
    · have known' : (op.perform e).facts.contains id = true := by
        obtain ⟨edge, found⟩ := FactBase.contains_iff.mp known
        exact FactBase.contains_iff.mpr
          ⟨edge, (coherent.continues_perform keepsFirst).facts.edges id edge found⟩
      refine ih (coherent.perform op) (fun pending => ?_) known' keepsRest later
      rcases coherent.fresh_perform pending with old | new
      · exact absent old
      · rw [known'] at new
        cases new

/-- Between two steps that take a candidate it is proposed again, and the first of them dropped
it. -/
theorem Coherent.proposed_again (coherent : e.Coherent)
    (keeps : ∀ op ∈ ops, op ≠ .clearDocument) {before between after : List Event}
    {first second : Except EngineError Step}
    (split : e.events ops = before ++ .taken id first :: (between ++ .taken id second :: after)) :
    Drops first ∧ .proposed id ∈ between := by
  induction ops generalizing e before with
  | nil => simp [events] at split
  | cons op rest ih =>
    obtain ⟨_, keepsRest⟩ := List.forall_mem_cons.mp keeps
    have coherent' := coherent.perform op
    rcases append_split split with ⟨own, here, same⟩ | ⟨_, _, later⟩
    · obtain ⟨mode, c, edge, rfl, taken, rfl, rfl, rfl⟩ := exists_step_of_taken here
      have absent : c.edge ∉ ((Operation.step mode).perform e).agenda.pending :=
        coherent.not_pending_of_taken taken mode
      rcases append_split same.symm with ⟨_, proposes, _⟩ | ⟨between, rfl, later⟩
      · exact absurd proposes taken_not_proposed
      · refine ⟨?_, List.mem_append_right _ (coherent'.proposed_before absent later)⟩
        rcases coherent.drops_or_commits taken mode with drops | known
        · exact drops
        · exact absurd later (coherent'.not_taken_of_committed absent known keepsRest)
    · exact ih coherent' keepsRest later

/-- A recorded step is about the candidate that it takes. -/
theorem Coherent.edge_of_mem_events (coherent : e.Coherent) {s : Step}
    (mem : .taken id (.ok s) ∈ e.events ops) : s.edge = id := by
  induction ops generalizing e with
  | nil => cases mem
  | cons op rest ih =>
    rcases List.mem_append.mp mem with here | later
    · obtain ⟨_, _, split⟩ := List.append_of_mem here
      obtain ⟨mode, c, edge, rfl, taken, rfl, ok, _⟩ := exists_step_of_taken split
      exact coherent.edge_of_recorded taken ok.symm
    · exact ih (coherent.perform op) later

/-! ### Trajectories -/

/-- No fact is proposed again after it was rejected. -/
def Final (events : List Event) : Prop :=
  events.Pairwise fun x y => ¬ x.RevivedBy y

instance (events : List Event) : Decidable (Final events) :=
  inferInstanceAs (Decidable (events.Pairwise fun x y => ¬ x.RevivedBy y))

/-- A fact that is recorded twice is taken by two steps. -/
theorem Coherent.exists_taken_twice (coherent : e.Coherent)
    (twice : ¬((e.trajectory ops).map Step.edge).Nodup) : ∃ before id s between t after,
      e.events ops = before ++ .taken id (.ok s) :: (between ++ .taken id (.ok t) :: after) := by
  rw [List.Nodup, List.pairwise_map, trajectory, List.pairwise_filterMap,
    List.pairwise_iff_forall_sublist] at twice
  push Not at twice
  obtain ⟨x, y, sublist, s, isFirst, t, isSecond, same⟩ := twice
  obtain ⟨first, second, parts, memX, restY⟩ := List.cons_sublist_iff.mp sublist
  obtain ⟨before, between, rfl⟩ := List.append_of_mem memX
  obtain ⟨between', after, rfl⟩ := List.append_of_mem (List.singleton_sublist.mp restY)
  have split : e.events ops = before ++ x :: ((between ++ between') ++ y :: after) := by
    rw [parts]
    simp
  obtain ⟨id, rfl⟩ := Event.step?_eq_some_iff.mp isFirst
  obtain ⟨id', rfl⟩ := Event.step?_eq_some_iff.mp isSecond
  have recorded : .taken id (.ok s) ∈ e.events ops := by simp [split]
  have recorded' : .taken id' (.ok t) ∈ e.events ops := by simp [split]
  obtain rfl : id = id' := by
    rw [← coherent.edge_of_mem_events recorded, ← coherent.edge_of_mem_events recorded', same]
  exact ⟨before, id, s, between ++ between', t, after, split⟩

/-- If no rejected fact is proposed again, no fact is recorded twice. -/
theorem Coherent.nodup_trajectory (coherent : e.Coherent)
    (keeps : ∀ op ∈ ops, op ≠ .clearDocument) (final : Final (e.events ops)) :
    ((e.trajectory ops).map Step.edge).Nodup := by
  by_contra twice
  obtain ⟨before, id, s, between, t, after, split⟩ := coherent.exists_taken_twice twice
  obtain ⟨⟨rejected⟩, proposed⟩ := coherent.proposed_again keeps split
  rw [Final, split] at final
  have never := (List.pairwise_cons.mp (List.pairwise_append.mp final).2.1).1
  exact never _ (List.mem_append_left _ proposed) ⟨rejected, rfl⟩

theorem Coherent.trajectory_step (coherent : e.Coherent) (mode : Mode)
    (rest : List (Operation Custom)) : e.trajectory (.step mode :: rest) =
      (e.step mode).1.toOption.toList ++ (e.step mode).2.trajectory rest := by
  have proposed : ∀ ids : List EdgeId, (ids.map Event.proposed).filterMap Event.step? = [] := by
    intro ids
    simp [Event.step?]
  rw [trajectory, events, List.filterMap_append]
  congr 1
  cases taken : e.taken? with
  | some x =>
    rw [events_of_taken taken, List.filterMap_cons, proposed]
    cases (e.step mode).1 <;> rfl
  | none =>
    cases ok : (e.step mode).1 with
    | ok s =>
      obtain ⟨c, edge, found⟩ := coherent.taken_of_ok (Prod.ext ok rfl)
      rw [taken] at found
      cases found
    | error failure =>
      simp [Operation.events, taken, proposed, Except.toOption]

/-- The steps of a run are those of its trajectory. -/
theorem Coherent.steps_runWithin (coherent : e.Coherent) (mode : Mode) (fuel : Nat)
    (limit : Option Nat) : ∃ n,
      (runWithin mode fuel limit e).steps = e.trajectory (.replicate n (.step mode)) ∧
      (runWithin mode fuel limit e).engine = e.performAll (.replicate n (.step mode)) := by
  have goes := goes mode fuel limit e
  generalize runWithin mode fuel limit e = r at goes
  induction goes with
  | @failed _ _ e _ _ _ _ stepped =>
    have recorded := coherent.trajectory_step mode []
    have performed : (e.step mode).2 = _ := congrArg Prod.snd stepped
    rw [stepped] at recorded
    exact ⟨1, recorded.symm, performed.symm⟩
  | @step _ _ e _ _ _ _ _ stepped _ ih =>
    have recorded := coherent.trajectory_step mode
    have coherent' : (e.step mode).2.Coherent := coherent.step mode
    have performed : (Operation.step mode).perform e = _ := congrArg Prod.snd stepped
    rw [stepped] at recorded coherent'
    obtain ⟨n, steps, same⟩ := ih coherent'
    refine ⟨n + 1, ?_, ?_⟩
    · rw [List.replicate_succ, recorded, ← steps]
      rfl
    · rw [List.replicate_succ, performAll_cons, performed]
      exact same
  | _ => exact ⟨0, rfl, rfl⟩

/-- Nothing remembers a rejected candidate. Of two steps in one document that take the same
candidate, the first rejected it or failed with the policies, and it was proposed again in between. So no fact is
recorded twice if no rejected fact is proposed again. -/
theorem Reachable.proposed_between (reachable : Reachable e)
    (keeps : ∀ op ∈ ops, op ≠ .clearDocument) :
    (∀ before id first between second after,
      e.events ops = before ++ .taken id first :: (between ++ .taken id second :: after) →
        Drops first ∧ .proposed id ∈ between) ∧
      (Final (e.events ops) → ((e.trajectory ops).map Step.edge).Nodup) ∧
      ∀ mode fuel limit, ∃ n,
        (Engine.runWithin mode fuel limit e).steps = e.trajectory (.replicate n (.step mode)) ∧
        (Engine.runWithin mode fuel limit e).engine = e.performAll (.replicate n (.step mode)) :=
  ⟨fun _ _ _ _ _ _ => reachable.coherent.proposed_again keeps,
    reachable.coherent.nodup_trajectory keeps, reachable.coherent.steps_runWithin⟩

/-- Links between points, and paths that score below the threshold. -/
def doubting : Engine :=
  (linkable.addRule chainRule (.constant (-1.0))).2

theorem reachable_doubting : Reachable doubting :=
  reachable_linkable.next (.addRule chainRule (.constant (-1.0)))

/-- A path from 1 over 2 to 3, which is rejected. -/
def pathOverTwo : List Operation :=
  [.makeEdgeFromValues ⟨0⟩ [.int 1, .int 2] .temporary,
    .makeEdgeFromValues ⟨0⟩ [.int 2, .int 3] .temporary,
    .commit ⟨.temporary, 0⟩ true, .commit ⟨.temporary, 1⟩ true, .step .decoder]

/-- A link from 1 to 4, which is accepted. -/
def linkToFour : List Operation :=
  [.makeEdgeFromValues ⟨0⟩ [.int 1, .int 4] .temporary,
    .addCandidate ⟨.temporary, 3⟩ (.constant 1.0), .step .decoder]

/-- A link from 4 to 3, which makes a second path from 1 to 3. -/
def linkFromFour : List Operation :=
  [.makeEdgeFromValues ⟨0⟩ [.int 4, .int 3] .temporary, .commit ⟨.temporary, 4⟩ true,
    .step .decoder]

/-- The path is taken again only after the second way is there, and by then it is proposed again. -/
theorem proposed_between_doubting :
    let once := pathOverTwo ++ linkToFour
    let twice := once ++ linkFromFour
    Reachable doubting ∧ (∀ op ∈ twice, op ≠ .clearDocument) ∧
      Final (doubting.events once) ∧
      (doubting.trajectory once).map Step.edge = [⟨.temporary, 2⟩, ⟨.temporary, 3⟩] ∧
      ((doubting.trajectory once).map Step.edge).Nodup ∧
      (doubting.trajectory twice).map Step.edge =
        [⟨.temporary, 2⟩, ⟨.temporary, 3⟩, ⟨.temporary, 2⟩] ∧
      ¬ Final (doubting.events twice) ∧
      ∃ before id first between second after,
        doubting.events twice =
          before ++ .taken id first :: (between ++ .taken id second :: after) ∧
        Drops first ∧ .proposed id ∈ between := by
  intro once twice
  have keeps : ∀ op ∈ twice, op ≠ .clearDocument := by
    simp [twice, once, pathOverTwo, linkToFour, linkFromFour]
  have keepsOnce : ∀ op ∈ once, op ≠ .clearDocument := fun op mem =>
    keeps op (List.mem_append_left _ mem)
  have final : Final (doubting.events once) := by decide +kernel
  have trajectory : (doubting.trajectory twice).map Step.edge =
      [⟨.temporary, 2⟩, ⟨.temporary, 3⟩, ⟨.temporary, 2⟩] := by
    decide +kernel
  have repeats : ¬((doubting.trajectory twice).map Step.edge).Nodup := by
    rw [trajectory]
    decide
  obtain ⟨_, nodup, _⟩ := Reachable.proposed_between reachable_doubting keepsOnce
  obtain ⟨again, nodupTwice, _⟩ := Reachable.proposed_between reachable_doubting keeps
  obtain ⟨before, id, s, between, t, after, split⟩ :=
    reachable_doubting.coherent.exists_taken_twice repeats
  exact ⟨reachable_doubting, keeps, final, by decide +kernel, nodup final, trajectory,
    fun finalTwice => repeats (nodupTwice finalTwice),
    before, id, .ok s, between, .ok t, after, split, again _ _ _ _ _ _ split⟩

/-- A rejected candidate is taken again although nothing but the rule ever proposed it. -/
theorem not_rejected_for_good : ¬ ∀ (e : Engine) (ops : List Operation), Reachable e →
    (∀ op ∈ ops, op ≠ .clearDocument) → (ops.filterMap Operation.requested?).Nodup →
      (e.trajectory ops).Pairwise fun s t => s.outcome = .rejected → t.edge ≠ s.edge := by
  intro dropped
  have never := dropped doubting (pathOverTwo ++ linkToFour ++ linkFromFour) reachable_doubting
    (by simp [pathOverTwo, linkToFour, linkFromFour]) (by decide +kernel)
  revert never
  decide +kernel

end Engine

end ScoredChaining
