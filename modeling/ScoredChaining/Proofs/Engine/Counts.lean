import ScoredChaining.Engine.Run

/-!
The counts of what was done, for any engine and also when operations fail.

* `RunStats.Le`: no count is lower. `RunStats.since_plus`: what was done over two stretches of work is
  the sum of what was done over each.
* `Engine.Counts`: candidates are proposed and refused and patterns are completed, but no candidate is
  taken off the agenda. Commits are of this kind.
* `Engine.counts_step`, `Engine.pops_step`: a step lowers no count, and one that does not fail takes
  exactly one candidate.
-/

namespace ScoredChaining

variable {Custom : Type} [Decider Custom]

namespace RunStats

variable {s s' s'' : RunStats}

/-- No count is lower. -/
structure Le (s s' : RunStats) : Prop where
  pops : s.pops ≤ s'.pops
  commits : s.commits ≤ s'.commits
  rejects : s.rejects ≤ s'.rejects
  undecided : s.undecided ≤ s'.undecided
  matched : s.matched ≤ s'.matched
  firings : s.firings ≤ s'.firings
  generated : s.generated ≤ s'.generated
  duplicates : s.duplicates ≤ s'.duplicates

theorem Le.refl (s : RunStats) : Le s s := by
  constructor <;> exact Nat.le_refl _

theorem Le.trans (first : Le s s') (second : Le s' s'') : Le s s'' where
  pops := Nat.le_trans first.pops second.pops
  commits := Nat.le_trans first.commits second.commits
  rejects := Nat.le_trans first.rejects second.rejects
  undecided := Nat.le_trans first.undecided second.undecided
  matched := Nat.le_trans first.matched second.matched
  firings := Nat.le_trans first.firings second.firings
  generated := Nat.le_trans first.generated second.generated
  duplicates := Nat.le_trans first.duplicates second.duplicates

/-- What was done in two runs, the second after the first. Whether candidates were left is what the
second says. -/
def plus (first second : RunStats) : RunStats where
  pops := first.pops + second.pops
  commits := first.commits + second.commits
  rejects := first.rejects + second.rejects
  undecided := first.undecided + second.undecided
  matched := first.matched + second.matched
  firings := first.firings + second.firings
  generated := first.generated + second.generated
  duplicates := first.duplicates + second.duplicates
  hitPopLimit := second.hitPopLimit

theorem since_plus (first : Le s s') (second : Le s' s'') :
    s''.since s = (s'.since s).plus (s''.since s') := by
  obtain ⟨p, c, r, u, m, f, g, d⟩ := first
  obtain ⟨p', c', r', u', m', f', g', d'⟩ := second
  simp only [since, plus, RunStats.mk.injEq, and_true]
  omega

end RunStats

namespace Engine

variable {e e' e'' : Engine Custom}

/-- No count is lower, and no candidate was taken off the agenda. -/
structure Counts (e e' : Engine Custom) : Prop where
  le : e.stats.Le e'.stats
  pops : e'.stats.pops = e.stats.pops

namespace Counts

theorem refl (e : Engine Custom) : Counts e e :=
  ⟨.refl _, rfl⟩

theorem trans (first : Counts e e') (second : Counts e' e'') : Counts e e'' :=
  ⟨first.le.trans second.le, second.pops.trans first.pops⟩

theorem of_eq (same : e'.stats = e.stats) : Counts e e' := by
  constructor
  · rw [same]
    exact .refl _
  · rw [same]

/-- Another conclusion is drawn. -/
theorem generated (e : Engine Custom) :
    Counts e { e with stats := { e.stats with generated := e.stats.generated + 1 } } :=
  ⟨{ RunStats.Le.refl e.stats with generated := Nat.le_add_right _ _ }, rfl⟩

/-- Another generator is asked. -/
theorem firings (e : Engine Custom) (graph : Graph) :
    Counts e { e with graph, stats := { e.stats with firings := e.stats.firings + 1 } } :=
  ⟨{ RunStats.Le.refl e.stats with firings := Nat.le_add_right _ _ }, rfl⟩

theorem addCandidate (e : Engine Custom) (id : EdgeId) (score : Score) :
    Counts e (e.addCandidate id score).2 := by
  unfold Engine.addCandidate
  split
  · exact ⟨{ RunStats.Le.refl e.stats with duplicates := Nat.le_add_right _ _ }, rfl⟩
  · split
    · exact .refl e
    · split <;> exact .of_eq rfl

theorem propose (proposals : List Proposal) (e : Engine Custom) :
    Counts e (Engine.propose proposals e).2 := by
  induction proposals generalizing e with
  | nil => exact .refl e
  | cons p rest ih =>
    have added := (generated e).trans (addCandidate _ p.edge p.score)
    rw [Engine.propose]
    simp only
    generalize Engine.addCandidate (_ : Engine Custom) p.edge p.score = answer at added
    obtain ⟨_ | _, e'⟩ := answer
    · exact added
    · exact added.trans (ih e')

theorem runGenerators (bindings : List Binding) (generators : List RuleGenerator)
    (e : Engine Custom) : Counts e (Engine.runGenerators bindings generators e).2 := by
  induction generators generalizing e with
  | nil => exact .refl e
  | cons r rest ih =>
    rw [Engine.runGenerators]
    simp only
    split
    · exact firings e _
    · rename_i proposals graph _
      have proposed := (firings e graph).trans (propose proposals _)
      generalize Engine.propose proposals (_ : Engine Custom) = answer at proposed
      obtain ⟨_ | _, e'⟩ := answer
      · exact proposed
      · exact proposed.trans (ih e')

theorem runFactors (bindings : List Binding) (factors : List Factor) (e : Engine Custom) :
    Counts e (Engine.runFactors bindings factors e).2 := by
  induction factors generalizing e with
  | nil => exact .refl e
  | cons f rest ih =>
    rw [Engine.runFactors]
    split
    · exact .of_eq rfl
    · rename_i agenda _
      have rescored : Counts e { e with agenda } := .of_eq rfl
      exact rescored.trans (ih _)

theorem runMatch (m : Match RuleGenerator Factor) (e : Engine Custom) :
    Counts e (Engine.runMatch m e).2 := by
  have asked := runGenerators m.bindings m.actions.generators e
  rw [Engine.runMatch]
  generalize Engine.runGenerators m.bindings m.actions.generators e = answer at asked
  obtain ⟨_ | _, e'⟩ := answer
  · exact asked
  · exact asked.trans (runFactors m.bindings m.actions.factors e')

theorem runMatches (found : List (Match RuleGenerator Factor)) (e : Engine Custom) :
    Counts e (Engine.runMatches found e).2 := by
  induction found generalizing e with
  | nil => exact .refl e
  | cons m rest ih =>
    have first := runMatch m e
    rw [Engine.runMatches]
    generalize Engine.runMatch m e = answer at first
    obtain ⟨_ | _, e'⟩ := answer
    · exact first
    · exact first.trans (ih e')

theorem fire (e : Engine Custom) (id : EdgeId) : Counts e (e.fire id).2 := by
  rw [Engine.fire]
  split
  · exact .refl e
  · rename_i found _ _
    have counted : Counts e
        { e with stats := { e.stats with matched := e.stats.matched + found.length } } :=
      ⟨{ RunStats.Le.refl e.stats with matched := Nat.le_add_right _ _ }, rfl⟩
    exact counted.trans (runMatches found _)

theorem record (e : Engine Custom) (id : EdgeId) (edge : Edge) : Counts e (e.record id edge).2 := by
  rw [Engine.record]
  split <;> exact .of_eq rfl

theorem commitWith (e : Engine Custom) (id : EdgeId) (matching : Bool) :
    Counts e (e.commitWith id matching).2 := by
  rw [Engine.commitWith]
  split
  · exact .refl e
  · rename_i edge _
    have recorded := record e id edge
    generalize e.record id edge = answer at recorded
    obtain ⟨_ | _, e'⟩ := answer
    · exact recorded
    · cases matching with
      | false => exact recorded
      | true =>
        have fired := recorded.trans (fire e' id)
        simp only [if_true]
        generalize e'.fire id = answer at fired
        obtain ⟨_ | _, e''⟩ := answer <;> exact fired

/-- What was decided is counted. -/
theorem conclude (e : Engine Custom) (id : EdgeId) (answer : Option Bool) :
    Counts e (e.conclude id answer).2 := by
  have rejected (decided : Bool) : Counts e (e.reject decided) :=
    ⟨{ RunStats.Le.refl e.stats with
        rejects := Nat.le_add_right _ _, undecided := Nat.le_add_right _ _ }, rfl⟩
  match answer with
  | none => exact rejected false
  | some false => exact rejected true
  | some true =>
    have committed := commitWith e id true
    rw [Engine.conclude, Engine.commit]
    generalize e.commitWith id true = answer at committed
    obtain ⟨_ | _ | _, e'⟩ := answer
    · exact committed
    · exact committed
    · exact ⟨{ committed.le with commits := Nat.le_succ_of_le committed.le.commits },
        committed.pops⟩

theorem consider (e : Engine Custom) (mode : Mode) (c : Candidate) :
    Counts e (e.consider mode c).2 := by
  rw [Engine.consider]
  split
  · exact .refl e
  · simp only
    split
    · exact .of_eq rfl
    · rename_i decisions _
      have asked : Counts e { e with decisions } := .of_eq rfl
      generalize concluded : Engine.conclude (_ : Engine Custom) c.edge _ = answered
      have counts : Counts e answered.2 := concluded ▸ asked.trans (conclude _ c.edge _)
      obtain ⟨_ | _, e'⟩ := answered <;> exact counts

end Counts

/-- A step lowers no count. -/
theorem counts_step (e : Engine Custom) (mode : Mode) : e.stats.Le (e.step mode).2.stats := by
  rw [step]
  split
  · exact .refl _
  · rename_i c agenda _
    have considered := (Counts.consider { e with
      agenda, stats := { e.stats with pops := e.stats.pops + 1 } } mode c).le
    have taken : e.stats.Le { e.stats with pops := e.stats.pops + 1 } :=
      { RunStats.Le.refl e.stats with pops := Nat.le_add_right _ _ }
    exact taken.trans considered

/-- A step that does not fail takes one candidate off the agenda. -/
theorem pops_step {mode : Mode} {s : Step} (ok : e.step mode = (.ok s, e')) :
    e'.stats.pops = e.stats.pops + 1 := by
  rw [step] at ok
  split at ok
  · cases (Prod.mk.inj ok).1
  · rename_i c agenda _
    have considered := (Counts.consider { e with
      agenda, stats := { e.stats with pops := e.stats.pops + 1 } } mode c).pops
    rwa [ok] at considered

end Engine

end ScoredChaining
