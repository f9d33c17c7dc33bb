import Mathlib.Data.Set.Card
import ScoredChaining.Proofs.Engine.Content
import ScoredChaining.Proofs.Engine.Steps
import ScoredChaining.Proofs.Rule.Base

/-!
Runs without a limit come to an end.

A step either commits another fact or leaves fewer candidates. What is committed or pending stays
within any set of atoms that the rules do not lead out of, so if such a set is finite, only finitely
many facts can be committed.

* `Engine.Coherent.within_step`, `Engine.Coherent.step_progress`: both for one step.
* `Engine.Reachable.run_stops`: without primed premises there is such a set, and every run stops.
-/

namespace ScoredChaining

variable {Custom : Type} [Decider Custom]

/-- The run came to an end by itself: nothing is pending any more, or the policies failed. -/
def Run.Stopped (r : Run Custom) : Prop :=
  (r.ending = .exhausted ∧ r.engine.agenda.isEmpty = true) ∨
    ∃ failure, r.ending = .failed (.decision failure)

theorem Run.Stopped.ended {r : Run Custom} (stopped : r.Stopped) : r.ending ≠ .outOfFuel := by
  rcases stopped with ⟨exhausted, _⟩ | ⟨failure, failed⟩ <;> simp_all

namespace Engine

variable {e : Engine Custom} {id : EdgeId} {S : Set Atom}

/-! ### What can become known -/

/-- The atoms of everything that is committed or pending are in the set. -/
def Within (e : Engine Custom) (S : Set Atom) : Prop :=
  ∀ id, Known e id → ∀ a, e.graph.atom? id = some a → a ∈ S

/-- What is committed or pending is live, so it says an atom. -/
theorem Coherent.exists_atom_of_known (coherent : e.Coherent) (known : Known e id) :
    ∃ a, e.graph.atom? id = some a := by
  rcases known with pending | committed
  · obtain ⟨edge, live⟩ := coherent.pending id pending
    exact coherent.graph.exists_atom live
  · exact coherent.exists_atom committed

/-- No step leads out of a set of atoms that the rules do not lead out of. -/
theorem Coherent.within_step (coherent : e.Coherent)
    (closed : Atom.Closed (fun _ _ => True) (e.rules.map CompiledRule.rule) S)
    (within : e.Within S) (mode : Mode) : ((Operation.step mode).perform e).Within S := by
  have coherent' := coherent.perform (.step mode)
  have continues_ : Continues e ((Operation.step mode).perform e) :=
    coherent.continues_perform (by simp)
  have old : ∀ d, Known e d →
      ∀ a, ((Operation.step mode).perform e).graph.atom? d = some a → a ∈ S := by
    intro d known a isAtom
    obtain ⟨b, isAtomBefore⟩ := coherent.exists_atom_of_known known
    have same := coherent.graph.atom?_mono continues_.graph isAtomBefore
    obtain rfl := Option.some.inj (isAtom.symm.trans same)
    exact within d known a isAtomBefore
  rcases coherent.fires_or_quiet (.step mode) with ⟨d, edge, fires⟩ | quiet
  · have taken : d ∈ e.agenda.pending := fires.asked.resolve_left (by simp)
    have committed : ∀ d ∈ ((Operation.step mode).perform e).facts.order, Known e d := by
      intro d mem
      rw [fires.order] at mem
      rcases List.mem_append.mp mem with before | here
      · exact .inr before
      · obtain rfl := List.mem_singleton.mp here
        exact .inl taken
    rintro id (pending | mem) a isAtom
    · rcases fires.pending id pending with before | ⟨f, called, p, proposed, rfl⟩
      · exact old id (.inl before) a isAtom
      · obtain ⟨ρ, isRule, _, premises, conclusion⟩ :=
          coherent.admitted_of_called fires called proposed coherent' (.refl _)
        obtain rfl := Option.some.inj (isAtom.symm.trans conclusion)
        apply closed _ (List.mem_map_of_mem isRule) ρ trivial
        intro t isPremise
        obtain ⟨d, mem, isAtom⟩ := premises t isPremise
        exact old d (committed d mem) _ isAtom
    · exact old id (committed id mem) a isAtom
  · rintro id (pending | mem) a isAtom
    · exact old id (.inl ((quiet.pending id pending).resolve_right (by simp))) a isAtom
    · rw [quiet.facts trivial] at mem
      exact old id (.inr mem) a isAtom

/-- There are no more committed facts than atoms that they can say. -/
theorem Coherent.length_order_le (coherent : e.Coherent) (within : e.Within S)
    (finite : S.Finite) : e.facts.order.length ≤ S.ncard := by
  rw [← coherent.length_content, ← List.toFinset_card_of_nodup coherent.nodup_content,
    ← Set.ncard_coe_finset]
  apply Set.ncard_le_ncard _ finite
  intro a mem
  obtain ⟨id, committed, isAtom⟩ := mem_content_iff.mp (List.mem_toFinset.mp mem)
  exact within id (.inr committed) a isAtom

/-! ### Progress -/

/-- A step with candidates left commits another fact, or leaves fewer candidates. -/
theorem Coherent.step_progress (coherent : e.Coherent) (left : e.agenda.isEmpty = false)
    (mode : Mode) :
    let e' := (e.step mode).2
    e.facts.order.length < e'.facts.order.length ∨
      e'.facts.order.length = e.facts.order.length ∧
        e'.agenda.toList.length < e.agenda.toList.length := by
  obtain ⟨x, edge, asked, perm, live, same, coherentAsked, takes⟩ := coherent.step_takes left mode
  have facts : asked.facts = e.facts := by rw [same]
  have graph : asked.graph = e.graph := by rw [same]
  have fewer : asked.agenda.toList.length < e.agenda.toList.length := by
    rw [perm.length_eq]
    exact Nat.lt_succ_self _
  generalize e.step mode = answer at takes
  cases takes with
  | fails => exact .inr ⟨by rw [facts], fewer⟩
  | refuses s stats => exact .inr ⟨by rw [facts], fewer⟩
  | accepts s stats =>
    have live : asked.graph.edges.get? x.edge = some edge := graph ▸ live
    cases known : asked.facts.contains x.edge with
    | true =>
      right
      rw [(commitWith_of_contains live known true).1]
      exact ⟨by rw [facts], fewer⟩
    | false =>
      left
      obtain ⟨_, effects, _⟩ := coherentAsked.commit_effects live known
      rw [effects.frame.facts, record_of_new known, FactBase.order_add known, facts,
        List.length_append]
      exact Nat.lt_succ_self _

/-- If a finite set of atoms has all that can become known, the run stops. The number of facts that
can still be committed drops with each commit, and the number of candidates with every other
step. -/
theorem Coherent.exists_stopped {e : Engine Custom} (coherent : e.Coherent)
    (closed : Atom.Closed (fun _ _ => True) (e.rules.map CompiledRule.rule) S)
    (within : e.Within S) (finite : S.Finite) (mode : Mode) :
    ∃ fuel, (runWithin mode fuel none e).Stopped := by
  cases left : e.agenda.isEmpty with
  | true => exact ⟨0, .inl (by simp [runWithin_of_isEmpty left, left])⟩
  | false =>
    have progress := coherent.step_progress left mode
    have coherent' : (e.step mode).2.Coherent := coherent.step mode
    have within' : (e.step mode).2.Within S := coherent.within_step closed within mode
    have bounded := coherent'.length_order_le within' finite
    have rules : (e.step mode).2.rules = e.rules := (coherent.works_step mode).rules
    obtain ⟨fuel, stopped⟩ :=
      coherent'.exists_stopped (rules.symm ▸ closed) within' finite mode
    obtain ⟨x, edge, asked, _, _, _, _, takes⟩ := coherent.step_takes left mode
    refine ⟨fuel + 1, ?_⟩
    rw [runWithin, if_neg (by simp [left]), if_neg (by simp)]
    generalize e.step mode = answer at takes stopped
    cases takes with
    | fails => exact .inr ⟨_, rfl⟩
    | refuses s stats => exact stopped
    | accepts s stats => exact stopped
termination_by (S.ncard - e.facts.order.length, e.agenda.toList.length)
decreasing_by
  rcases progress with more | ⟨same, fewer⟩
  · exact .left _ _ (by omega)
  · rw [same]
    exact .right _ fewer

/-! ### Termination -/

/-- Without primed premises the rules draw from what is committed or pending finitely many atoms
only, so a run without a limit stops. -/
theorem Coherent.exists_enough (coherent : e.Coherent)
    (unprimed : ∀ c ∈ e.rules, ∀ t ∈ c.rule.premises, t.factVariable = none) (mode : Mode) :
    ∃ enough, (runWithin mode enough none e).Stopped := by
  let known : List Atom := (e.agenda.pending ++ e.facts.order).filterMap e.graph.atom?
  let rules := e.rules.map CompiledRule.rule
  have closed : Atom.Closed (fun _ _ => True) rules (Atom.base rules known) := by
    refine Atom.closed_base ?_ known
    intro rule isRule name isArg
    obtain ⟨c, mem, rfl⟩ := List.mem_map.mp isRule
    exact (coherent.typed c mem).covered (unprimed c mem) isArg
  have within : e.Within (Atom.base rules known) := by
    intro id isKnown a isAtom
    exact Atom.mem_base (List.mem_filterMap.mpr ⟨id, List.mem_append.mpr isKnown, isAtom⟩)
  exact coherent.exists_stopped closed within (Atom.finite_base rules known) mode

/-- Without primed premises and without a limit, a run stops with nothing pending or with a failure
of the policies. More fuel does not change it. -/
theorem Reachable.run_stops (reachable : Reachable e)
    (unprimed : ∀ c ∈ e.rules, ∀ t ∈ c.rule.premises, t.factVariable = none)
    (unlimited : e.settings.maxPops = none) (mode : Mode) :
    ∃ enough, ∀ fuel, enough ≤ fuel →
      (e.run mode fuel).Stopped ∧ e.run mode fuel = e.run mode enough := by
  obtain ⟨enough, stopped⟩ := reachable.coherent.exists_enough unprimed mode
  refine ⟨enough, fun fuel le => ?_⟩
  have same := runWithin_of_ended stopped.ended le
  rw [Engine.run, Engine.run, unlimited, same]
  exact ⟨stopped, rfl⟩

/-- Both links are committed, and the path over them is pending. -/
def proposing : Engine :=
  chained.performAll [.commit ⟨.temporary, 1⟩ true]

theorem reachable_proposing : Reachable proposing :=
  reachable_chained.performAll _

/-- The pending path is decided about in both modes. -/
theorem run_stops_proposing : Reachable proposing ∧
    (∀ c ∈ proposing.rules, ∀ t ∈ c.rule.premises, t.factVariable = none) ∧
    proposing.settings.maxPops = none ∧ proposing.agenda.isEmpty = false ∧
    ∀ mode, ∃ enough, ∀ fuel, enough ≤ fuel →
      (proposing.run mode fuel).Stopped ∧ proposing.run mode fuel = proposing.run mode enough := by
  have unprimed : ∀ c ∈ proposing.rules, ∀ t ∈ c.rule.premises, t.factVariable = none := by
    decide +kernel
  have unlimited : proposing.settings.maxPops = none := by decide +kernel
  exact ⟨reachable_proposing, unprimed, unlimited, by decide +kernel, fun mode =>
    Reachable.run_stops reachable_proposing unprimed unlimited mode⟩

end Engine

end ScoredChaining
